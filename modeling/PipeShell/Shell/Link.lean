import PipeShell.Program

/-! Links: the pipes between the stages of a pipeline. -/
namespace PipeShell

structure Link where
  readEnd : Fd
  writeEnd : Fd
  deriving DecidableEq, Repr

namespace Link

open Program

def create : Program (Except Errno Link) := do
  match ← pipe with
  | .ok (r, w) => return .ok ⟨r, w⟩
  | .error e => return .error e

def closeAll : List Link → Program Unit
  | [] => return
  | l :: ls => do
    let _ ← close l.readEnd
    let _ ← close l.writeEnd
    closeAll ls

/-- Opens `n` links with `source`, which may keep a state of its own. If one cannot be opened, no
more are asked for and those opened before are closed. -/
def openMany {σ : Type} (source : σ → Program (Except Errno Link × σ)) (s : σ) (n : Nat) :
    Program (Except Errno (List Link) × σ) := go [] s n
where
  go (opened : List Link) (s : σ) : Nat → Program (Except Errno (List Link) × σ)
    | 0 => return (.ok opened, s)
    | n + 1 => do
      match ← source s with
      | (.ok l, s) => go (opened ++ [l]) s n
      | (.error e, s) =>
        closeAll opened
        return (.error e, s)

end Link

end PipeShell
