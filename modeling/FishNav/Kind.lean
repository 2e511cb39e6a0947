/-!
# Kinds of syntax nodes

Every node of a fish syntax tree has a kind. Named kinds have a tag, the name under which the
grammar knows them; a tag that is not in the table stands for the kind `unknown`, and keywords
and punctuation are all of the kind `anonymous`.
-/
namespace FishNav

inductive Kind where
  | program | comment | functionDefinition | command | word | integer | float
  | variableName | variableExpansion | index | concatenation
  | doubleQuoteString | singleQuoteString | escapeSequence | commandSubstitution
  | forStatement | whileStatement | ifStatement | elseIfClause | elseClause
  | switchStatement | caseClause | beginStatement
  | conditionalExecution | negatedStatement | pipe
  | redirectedStatement | fileRedirect | streamRedirect
  | «return» | «break» | «continue»
  | homeDirExpansion | glob | braceExpansion
  | error | unknown | anonymous
  deriving DecidableEq, Repr

namespace Kind

/-- The tag of a kind that the grammar names. -/
def tag? : Kind → Option String
  | program => some "program"
  | comment => some "comment"
  | functionDefinition => some "function_definition"
  | command => some "command"
  | word => some "word"
  | integer => some "integer"
  | float => some "float"
  | variableName => some "variable_name"
  | variableExpansion => some "variable_expansion"
  | index => some "index"
  | concatenation => some "concatenation"
  | doubleQuoteString => some "double_quote_string"
  | singleQuoteString => some "single_quote_string"
  | escapeSequence => some "escape_sequence"
  | commandSubstitution => some "command_substitution"
  | forStatement => some "for_statement"
  | whileStatement => some "while_statement"
  | ifStatement => some "if_statement"
  | elseIfClause => some "else_if_clause"
  | elseClause => some "else_clause"
  | switchStatement => some "switch_statement"
  | caseClause => some "case_clause"
  | beginStatement => some "begin_statement"
  | conditionalExecution => some "conditional_execution"
  | negatedStatement => some "negated_statement"
  | pipe => some "pipe"
  | redirectedStatement => some "redirected_statement"
  | fileRedirect => some "file_redirect"
  | streamRedirect => some "stream_redirect"
  | «return» => some "return"
  | «break» => some "break"
  | «continue» => some "continue"
  | homeDirExpansion => some "home_dir_expansion"
  | glob => some "glob"
  | braceExpansion => some "brace_expansion"
  | error => some "ERROR"
  | unknown => none
  | anonymous => none

def tagged : List Kind :=
  [program, comment, functionDefinition, command, word, integer, float, variableName,
    variableExpansion, index, concatenation, doubleQuoteString, singleQuoteString,
    escapeSequence, commandSubstitution, forStatement, whileStatement, ifStatement,
    elseIfClause, elseClause, switchStatement, caseClause, beginStatement,
    conditionalExecution, negatedStatement, pipe, redirectedStatement, fileRedirect,
    streamRedirect, «return», «break», «continue», homeDirExpansion, glob, braceExpansion, error]

/-- The kind of a node with this tag. The tag of a node that is not named says nothing. -/
def ofTag (tag : String) (named : Bool) : Kind :=
  if named then (tagged.find? fun k => k.tag? == some tag).getD unknown else anonymous

/-- Keywords and punctuation are the nodes without a name. -/
def isNamed (k : Kind) : Bool := k != anonymous

/-- Opens a region of the text: the program, a body, a block. -/
def isScope : Kind → Bool
  | program | functionDefinition | forStatement | whileStatement | ifStatement
  | elseIfClause | elseClause | switchStatement | caseClause | beginStatement => true
  | _ => false

def isLoop : Kind → Bool
  | forStatement | whileStatement => true
  | _ => false

def isStatement : Kind → Bool
  | functionDefinition | command | forStatement | whileStatement | ifStatement
  | switchStatement | beginStatement | conditionalExecution | negatedStatement | pipe
  | redirectedStatement | «return» | «break» | «continue» => true
  | _ => false

/-- Brings in a name by itself, wherever it stands. -/
def isDefinition : Kind → Bool
  | functionDefinition => true
  | _ => false

def name : Kind → String
  | program => "Program"
  | comment => "Comment"
  | functionDefinition => "FunctionDefinition"
  | command => "Command"
  | word => "Word"
  | integer => "Integer"
  | float => "Float"
  | variableName => "VariableName"
  | variableExpansion => "VariableExpansion"
  | index => "Index"
  | concatenation => "Concatenation"
  | doubleQuoteString => "DoubleQuoteString"
  | singleQuoteString => "SingleQuoteString"
  | escapeSequence => "EscapeSequence"
  | commandSubstitution => "CommandSubstitution"
  | forStatement => "ForStatement"
  | whileStatement => "WhileStatement"
  | ifStatement => "IfStatement"
  | elseIfClause => "ElseIfClause"
  | elseClause => "ElseClause"
  | switchStatement => "SwitchStatement"
  | caseClause => "CaseClause"
  | beginStatement => "BeginStatement"
  | conditionalExecution => "ConditionalExecution"
  | negatedStatement => "NegatedStatement"
  | pipe => "Pipe"
  | redirectedStatement => "RedirectedStatement"
  | fileRedirect => "FileRedirect"
  | streamRedirect => "StreamRedirect"
  | «return» => "Return"
  | «break» => "Break"
  | «continue» => "Continue"
  | homeDirExpansion => "HomeDirExpansion"
  | glob => "Glob"
  | braceExpansion => "BraceExpansion"
  | error => "Error"
  | unknown => "Unknown"
  | anonymous => "Anonymous"

end Kind

end FishNav
