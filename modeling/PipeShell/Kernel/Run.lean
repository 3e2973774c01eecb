import PipeShell.Kernel.Step

/-! Running a system: who makes the next step, and how the clock goes on when nobody can. Processes
that run code of the shell come first, and the programs that they launched take turns. -/
namespace PipeShell.System

variable {ι ρ : Type} (m : Machine ι) (s : System ι ρ)

/-- The processes in the order in which they are offered a step after a program's step in `last`. -/
def order (last : Pid) : List Pid :=
  let code := s.processes.entries.filter fun e => e.2.control.isCode
  let images := s.processes.entries.filter fun e => e.2.control.isImage
  let (after, before) := images.partition fun e => last < e.1
  (code ++ after ++ before).map (·.1)

def next (last : Pid) : Option (Pid × System ι ρ) :=
  (s.order last).findSome? fun pid => (s.step m pid).map (pid, ·)

def wakeTime? (p : Process ι ρ) : Option Nat :=
  let call : Option Syscall := match p.control with
    | .code (.call c _ _) => some c
    | .image i => some (m.move i).1
    | _ => none
  match call with
  | some (.sleepUntil time) => some time
  | some (.wait _) => p.alarm.map (·.due)
  | _ => none

def nextTime? : Option Nat :=
  ((s.processes.entries.filterMap fun e => wakeTime? m e.2).filter (s.clock < ·)).min?

/-- Runs until the code of the main process has returned, that process has ended, or nothing can
happen before new input comes. `fuel` bounds the number of steps. -/
def run (main : Pid) : (fuel : Nat) → (last : Pid) → System ι ρ → System ι ρ
  | 0, _, s => s
  | fuel + 1, last, s =>
    match s.process? main with
    | none => s
    | some p => match p.control with
      | .code (.done _) => s
      | .ended _ => s
      | _ => match s.next m last with
        | some (pid, s) => run main fuel pid s
        | none => match s.nextTime? m with
          | some time => run main fuel last { s with clock := time }
          | none => s

end PipeShell.System
