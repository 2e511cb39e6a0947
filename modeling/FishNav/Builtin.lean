import FishNav.Text.Order

/-!
# Builtin commands

The commands that fish brings along. They are defined in no script.
-/
namespace FishNav.Builtin

def names : List String :=
  [".", ":", "[", "_", "abbr", "and", "argparse", "begin", "bg", "bind", "block", "break",
    "breakpoint", "builtin", "case", "cd", "command", "commandline", "complete", "contains",
    "continue", "count", "disown", "echo", "else", "emit", "end", "eval", "exec", "exit", "false",
    "fg", "fish_indent", "fish_key_reader", "for", "function", "functions", "history", "if", "jobs",
    "math", "not", "or", "path", "printf", "pwd", "random", "read", "realpath", "return", "set",
    "set_color", "source", "status", "string", "switch", "test", "time", "true", "type", "ulimit",
    "wait", "while"]

/-- Whether a name is a builtin, with further names to count as builtins. -/
def isBuiltin (extra : List String) (name : String) : Bool :=
  Text.isListed names name || extra.contains name

end FishNav.Builtin
