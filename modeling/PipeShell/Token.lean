import PipeShell.CommandLine

/-! Tokens: what a line is made of before its grammar is looked at. -/
namespace PipeShell

/-- Operators that are recognised in order to be refused. -/
inductive Operator
  | orIf
  | andIf
  | background
  deriving DecidableEq, Repr

def Operator.symbol : Operator → String
  | orIf => "||"
  | andIf => "&&"
  | background => "&"

inductive Token
  | word (w : Bytes)
  | pipe
  | redirect (mode : RedirectMode)
  | unsupported (op : Operator)
  deriving DecidableEq, Repr

end PipeShell
