import PipeShell.Token

/-! From the tokens of a line to its command line. With `W` a word, `P` a pipe and `R` a redirection
sign, the lines accepted are `W+ (P W+)* (R W)?`, and a line without tokens is no command line at
all. Tokens are taken from left to right, and the first that does not fit decides the error. -/
namespace PipeShell

inductive ParseError
  | pipeAtStart
  | pipeAfterPipe
  | badRedirect
  | afterRedirect
  | missingCommand
  | unsupported (op : Operator)
  deriving DecidableEq, Repr

def ParseError.message : ParseError → String
  | pipeAtStart => "pipe with no left argument"
  | pipeAfterPipe => "pipe with a left argument that is not a command"
  | badRedirect => "bad output redirect argument"
  | afterRedirect => "arguments after the output redirect"
  | missingCommand => "command line does not end with a command"
  | unsupported op => "unsupported operator '" ++ op.symbol ++ "'"

inductive Redirection
  | absent
  | awaits (mode : RedirectMode)
  | given (r : Redirect)
  deriving DecidableEq, Repr

/-- A command line in the making: the nodes up to the last pipe, the command being read after it,
and the redirection. -/
structure Draft where
  nodes : List Node
  current : Option Command
  redirection : Redirection
  deriving DecidableEq, Repr

namespace Draft

def empty : Draft := ⟨[], none, .absent⟩

def addWord (d : Draft) (w : Bytes) : Draft :=
  match d.current with
  | none => { d with current := some ⟨w, []⟩ }
  | some c => { d with current := some { c with arguments := c.arguments ++ [w] } }

def addPipe (d : Draft) : Except ParseError Draft :=
  match d.current with
  | some c => .ok { d with nodes := d.nodes ++ [.command c, .pipe], current := none }
  | none => .error (if d.nodes.isEmpty then .pipeAtStart else .pipeAfterPipe)

def add (d : Draft) (t : Token) : Except ParseError Draft :=
  match d.redirection, t with
  | .given _, .redirect _ => .error .badRedirect
  | .given _, _ => .error .afterRedirect
  | _, .unsupported op => .error (.unsupported op)
  | .awaits m, .word w => .ok { d with redirection := .given ⟨w, m⟩ }
  | .awaits _, _ => .error .badRedirect
  | .absent, .word w => .ok (d.addWord w)
  | .absent, .pipe => d.addPipe
  | .absent, .redirect m => .ok { d with redirection := .awaits m }

def finish (d : Draft) : Except ParseError (Option CommandLine) :=
  match d.redirection, d.current with
  | .awaits _, _ => .error .badRedirect
  | .absent, some c => .ok (some ⟨d.nodes ++ [.command c], none⟩)
  | .given r, some c => .ok (some ⟨d.nodes ++ [.command c], some r⟩)
  | .absent, none => if d.nodes.isEmpty then .ok none else .error .missingCommand
  | .given _, none => .error .missingCommand

end Draft

def CommandLine.ofTokens? (ts : List Token) : Except ParseError (Option CommandLine) := do
  (← ts.foldlM Draft.add Draft.empty).finish

end PipeShell
