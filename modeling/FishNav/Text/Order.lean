/-!
# Tables of texts

Texts are in order by the bytes of their UTF-8 forms. In a table that is in this order, a text is
looked for by halves.
-/
namespace FishNav.Text

/-- Whether a text comes before another by the bytes of their UTF-8 forms. -/
def precedes (s t : String) : Bool :=
  decide (s.toByteArray.data.toList < t.toByteArray.data.toList)

/-- The stretch of a table where `text` would be. Of more than one text, the part on the other side
of the text in the middle is left out. -/
def narrow (text : String) (table : List String) : List String :=
  if table.length ≤ 1 then table
  else
    let half := table.length / 2
    if table[half]?.any (precedes text) then narrow text (table.take (table.length - half))
    else narrow text (table.drop half)
termination_by table.length
decreasing_by
  · rw [List.length_take]
    omega
  · rw [List.length_drop]
    omega

/-- Whether a text is in a table that is in order. -/
def isListed (table : List String) (text : String) : Bool := narrow text table == [text]

end FishNav.Text
