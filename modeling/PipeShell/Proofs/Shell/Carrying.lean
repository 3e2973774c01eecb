import PipeShell.Proofs.Shell.Conduct

/-! How a command is carried out, in whichever process that is. A `cd` makes one change of
directory; an external command looks for its file and becomes the program in it. Main statement:
what a child does that runs a command, until it has become a program or has exited
(`carriesOut_runInChild`). -/
namespace PipeShell

open Program

variable {es : List Event}

/-- The events of a `cd` and its status. A directory with a NUL byte is not asked for. -/
inductive ChangesDirectory (arguments : List Bytes) : List Event → UInt8 → Prop
  | changed (h : Byte.nul ∉ arguments.headD (Bytes.ofAscii ".")) :
      ChangesDirectory arguments [⟨.chdir (arguments.headD (Bytes.ofAscii ".")), .ok ()⟩] 0
  | refused (h : Byte.nul ∉ arguments.headD (Bytes.ofAscii ".")) (e : Errno) :
      ChangesDirectory arguments [⟨.chdir (arguments.headD (Bytes.ofAscii ".")), .error e⟩] 1
  | invalid (h : Byte.nul ∈ arguments.headD (Bytes.ofAscii ".")) : ChangesDirectory arguments [] 1

theorem returns_changeDirectory_iff {arguments : List Bytes} {n : UInt8} :
    (Builtin.changeDirectory arguments).Returns es n ↔ ChangesDirectory arguments es n := by
  rw [Builtin.changeDirectory, returns_bind_iff]
  constructor
  · rintro ⟨r, es₁, es₂, rfl, h₁, h₂⟩
    by_cases hn : Byte.nul ∈ arguments.headD (Bytes.ofAscii ".")
    · rw [chdir_of_mem hn] at h₁
      obtain ⟨rfl, rfl⟩ := returns_done_iff.1 h₁
      obtain ⟨rfl, rfl⟩ := returns_done_iff.1 h₂
      exact .invalid hn
    · rw [chdir_of_notMem hn] at h₁
      obtain rfl := returns_ask_iff.1 h₁
      match r with
      | .ok () =>
        obtain ⟨rfl, rfl⟩ := returns_done_iff.1 h₂
        exact .changed hn
      | .error e =>
        obtain ⟨rfl, rfl⟩ := returns_done_iff.1 h₂
        exact .refused hn e
  · intro h
    cases h with
    | changed hn =>
      rw [chdir_of_notMem hn]
      exact ⟨.ok (), [_], [], rfl, returns_ask_iff.2 rfl, returns_done_iff.2 ⟨rfl, rfl⟩⟩
    | refused hn e =>
      rw [chdir_of_notMem hn]
      exact ⟨.error e, [_], [], rfl, returns_ask_iff.2 rfl, returns_done_iff.2 ⟨rfl, rfl⟩⟩
    | invalid hn =>
      rw [chdir_of_mem hn]
      exact ⟨_, [], [], rfl, returns_done_iff.2 ⟨rfl, rfl⟩, returns_done_iff.2 ⟨rfl, rfl⟩⟩

namespace Search

variable {name : Bytes} {argv : List Bytes}

def fileIn (name d : Bytes) : Bytes :=
  if d = [] ∨ pathLimit ≤ d.length then name else d ++ Byte.slash :: name

/-- Whether the search for `name` comes to `file` through the events `es`: at once if the name holds
a slash, and otherwise when the components before that of `file` have been tried in their order and
passed over. -/
inductive ComesTo (name : Bytes) (argv : List Bytes) : List Event → Bytes → Prop
  | itself (h : Byte.slash ∈ name) : ComesTo name argv [] name
  | component {r : Option Bytes} {tried : List (Bytes × Errno)} {d : Bytes} {after : List Bytes}
      (hname : name ≠ []) (hslash : Byte.slash ∉ name) (hlen : name.length ≤ nameLimit)
      (hds : (r.getD defaultPath).splitOn Byte.colon = tried.map Prod.fst ++ d :: after)
      (hd : d.length < pathLimit ∨ after ≠ []) (hpass : ∀ x ∈ tried, isPassedOver x.2 = true) :
      ComesTo name argv
        (⟨.environmentPath, r⟩ :: tried.map fun x => ⟨.exec (fileIn name x.1) argv, x.2⟩)
        (fileIn name d)

theorem ne_notExecutable_of_isPassedOver {e : Errno} (h : isPassedOver e = true) :
    e ≠ Errno.notExecutable := by
  rintro rfl
  exact absurd h (by decide)

theorem returns_attempt_of_isPassedOver {file : Bytes} {e : Errno} (h : isPassedOver e = true) :
    (attempt file argv).Returns [⟨.exec file argv, e⟩] e := by
  unfold attempt
  refine returns_bind_iff.2 ⟨e, [_], [], rfl, returns_ask_iff.2 rfl, ?_⟩
  rw [if_neg (ne_notExecutable_of_isPassedOver h)]
  exact returns_done_iff.2 ⟨rfl, rfl⟩

theorem reaches_attempt_script {α : Type} {file : Bytes} (rest : Errno → Program α) :
    (attempt file argv >>= rest).Reaches [⟨.exec file argv, Errno.notExecutable⟩]
      (exec scriptShell (scriptShell :: file :: argv.tail) >>= rest) := by
  have h : (attempt file argv).Reaches [⟨.exec file argv, Errno.notExecutable⟩]
      (exec scriptShell (scriptShell :: file :: argv.tail)) := by
    have hexec : (exec file argv).Returns [⟨.exec file argv, Errno.notExecutable⟩]
        Errno.notExecutable := returns_ask_iff.2 rfl
    unfold attempt
    refine (hexec.bind _).trans (reaches_nil_iff.2 ?_)
    rw [done_bind, if_pos rfl]
  exact h.bind rest

theorem reaches_attemptAll {limit : Nat} {tried : List (Bytes × Errno)} {d : Bytes}
    {after : List Bytes} (denied : Bool) (last : Errno)
    (hlimit : ∀ p ∈ tried.map Prod.fst ++ d :: after, limit ≤ p.length ↔ pathLimit ≤ p.length)
    (hd : d.length < pathLimit ∨ after ≠ []) (hpass : ∀ x ∈ tried, isPassedOver x.2 = true) :
    ∃ rest, (attemptAll limit name argv (tried.map Prod.fst ++ d :: after) denied last).Reaches
      (tried.map fun x => ⟨.exec (fileIn name x.1) argv, x.2⟩)
      (attempt (fileIn name d) argv >>= rest) := by
  have hfile : ∀ p, (limit ≤ p.length ↔ pathLimit ≤ p.length) →
      (if p.isEmpty ∨ limit ≤ p.length then name else p ++ Byte.slash :: name) = fileIn name p := by
    intro p hp
    simp only [fileIn, List.isEmpty_iff, hp]
  induction tried generalizing denied last with
  | nil =>
    have hgo : ¬(limit ≤ d.length ∧ after = []) := by
      rintro ⟨hle, hnil⟩
      rw [hlimit d (by simp)] at hle
      obtain hd | hd := hd
      · omega
      · exact hd hnil
    rw [List.map_nil, List.nil_append, List.map_nil, attemptAll, if_neg hgo]
    simp only [hfile d (hlimit d (by simp))]
    exact ⟨_, .refl _⟩
  | cons x tried ih =>
    obtain ⟨p, e⟩ := x
    obtain ⟨hp, hpass⟩ := List.forall_mem_cons.1 hpass
    rw [List.map_cons, List.cons_append, attemptAll, if_neg (by simp)]
    simp only [hfile p (hlimit p (by simp))]
    obtain ⟨rest, h⟩ := ih (denied || e = Errno.accessDenied) e
      (fun q hq => hlimit q (List.mem_cons_of_mem p hq)) hpass
    refine ⟨rest, ((returns_attempt_of_isPassedOver hp).bind _).trans ?_⟩
    rw [done_bind, if_pos hp]
    exact h

theorem reaches_launch {file : Bytes} (h : ComesTo name argv es file) :
    ∃ rest, (launch name argv).Reaches es (attempt file argv >>= rest) := by
  cases h with
  | itself h =>
    have hname : name ≠ [] := by
      rintro rfl
      cases h
    rw [launch, if_neg hname, if_pos h]
    exact ⟨done, by rw [bind_done]; exact .refl _⟩
  | @component r tried d after hname hslash hlen hds hd hpass =>
    have hlimit : ∀ p ∈ tried.map Prod.fst ++ d :: after,
        min (r.getD defaultPath).length (pathLimit - 1) + 1 ≤ p.length ↔ pathLimit ≤ p.length := by
      intro p hp
      -- no component is longer than the path, so only `pathLimit` makes one too long
      have hle := (Bytes.sublist_of_mem_splitOn (hds ▸ hp)).length_le
      have hpos : 0 < pathLimit := by decide
      omega
    obtain ⟨rest, h⟩ := reaches_attemptAll false Errno.noEntry hlimit hd hpass
    refine ⟨rest, ?_⟩
    rw [launch, if_neg hname, if_neg hslash]
    refine Reaches.next rfl ?_
    show (if _ then _ else _ : Program Errno).Reaches _ _
    rw [if_neg (by omega), hds]
    exact h

end Search

section Children

variable {s : State} {c : Command} {isTerminal : Bool}

/-- Whether `p` carries out the command `c` in a process of its own. A `cd` exits with the status of
its change of directory, and an `exit` with its number; only the terminal `exit` keeps its output
until then. An external command silences standard error, and without a NUL byte in its words it
executes the files that the search for its name comes to, by the script shell if one is no program.
It executes no others, and if it exits then with 1. -/
structure CarriesOut (s : State) (c : Command) (isTerminal : Bool) (p : Program Empty) : Prop where
  cd : c.name = Bytes.ofAscii "cd" → ∀ es code, p.Exits es code ↔
    ∃ n, ChangesDirectory c.arguments es n ∧ n.toUInt32.toInt32 = code
  exit : c.name = Bytes.ofAscii "exit" → ∀ es code, p.Exits es code ↔
    (if isTerminal then es = [] else ∃ r : Except Errno Unit, es = [⟨.close Fd.stdout, r⟩]) ∧
      ExitCode.ofArguments c.arguments = code
  tries : c.builtin? = none → ∀ es d again k, p.Reaches es (call d again k) → c.Tries d
  loud : c.builtin? = none → ∀ es e, (silenceStderr s.nullSink).Returns es (.error e) → p.Exits es 1
  invalid : c.builtin? = none → ∀ es, (silenceStderr s.nullSink).Returns es (.ok ()) →
    (Byte.nul ∈ c.name ∨ ∃ a ∈ c.arguments, Byte.nul ∈ a) → p.Exits es 1
  executes : c.builtin? = none → ∀ es fs file, (silenceStderr s.nullSink).Returns es (.ok ()) →
    ¬(Byte.nul ∈ c.name ∨ ∃ a ∈ c.arguments, Byte.nul ∈ a) →
    Search.ComesTo c.name (c.name :: c.arguments) fs file →
    (∃ again k, p.Reaches (es ++ fs) (call (.exec file (c.name :: c.arguments)) again k)) ∧
    ∃ again k, p.Reaches (es ++ fs ++ [⟨.exec file (c.name :: c.arguments), Errno.notExecutable⟩])
      (call (.exec Search.scriptShell (Search.scriptShell :: file :: c.arguments)) again k)

theorem exits_runInChild_cd (hc : c.builtin? = some .cd) {code : Int32} :
    (c.runInChild s isTerminal).Exits es code ↔
      ∃ n, ChangesDirectory c.arguments es n ∧ n.toUInt32.toInt32 = code := by
  have hexit : ¬(Builtin.changeDirectory c.arguments).Exits es code := fun h => by
    have hcalls : (Builtin.changeDirectory c.arguments).Calls (fun _ d => ∀ n, d ≠ .exit n)
      (fun _ _ => True) false := calls_changeDirectory nofun fun _ => trivial
    exact hcalls.of_exits h code rfl
  rw [Command.runInChild, hc]
  show (Builtin.changeDirectory c.arguments >>= fun n => exit n.toUInt32.toInt32).Exits es code ↔ _
  rw [exits_bind_iff, or_iff_right hexit]
  constructor
  · rintro ⟨n, es₁, es₂, rfl, h₁, h₂⟩
    obtain ⟨rfl, rfl⟩ := exits_exit_iff.1 h₂
    rw [List.append_nil]
    exact ⟨n, returns_changeDirectory_iff.1 h₁, rfl⟩
  · rintro ⟨n, h, rfl⟩
    exact ⟨n, es, [], (List.append_nil es).symm, returns_changeDirectory_iff.2 h,
      exits_exit_iff.2 ⟨rfl, rfl⟩⟩

theorem exits_runInChild_exit (hc : c.builtin? = some .exit) {code : Int32} :
    (c.runInChild s isTerminal).Exits es code ↔
      (if isTerminal then es = [] else ∃ r : Except Errno Unit, es = [⟨.close Fd.stdout, r⟩]) ∧
        ExitCode.ofArguments c.arguments = code := by
  rw [Command.runInChild, hc]
  cases isTerminal with
  | true => exact exits_exit_iff
  | false =>
    show (close Fd.stdout >>= fun _ => exit (ExitCode.ofArguments c.arguments)).Exits es code ↔ _
    have hclose : ¬(close Fd.stdout).Exits es code := fun h => by
      cases (exits_ask_iff (c := .close Fd.stdout).1 h).2
    rw [exits_bind_iff, or_iff_right hclose]
    constructor
    · rintro ⟨r, es₁, es₂, rfl, h₁, h₂⟩
      obtain ⟨rfl, hcode⟩ := exits_exit_iff.1 h₂
      obtain rfl := returns_close_iff.1 h₁
      exact ⟨⟨r, rfl⟩, hcode⟩
    · rintro ⟨⟨r, rfl⟩, h⟩
      exact ⟨r, [_], [], rfl, returns_close_iff.2 rfl, exits_exit_iff.2 ⟨rfl, h⟩⟩

theorem reaches_runInChild_attempt {fs : List Event} {file : Bytes} (hc : c.builtin? = none)
    (hes : (silenceStderr s.nullSink).Returns es (.ok ()))
    (hnul : ¬(Byte.nul ∈ c.name ∨ ∃ a ∈ c.arguments, Byte.nul ∈ a))
    (hfile : Search.ComesTo c.name (c.name :: c.arguments) fs file) :
    ∃ rest, (c.runInChild s isTerminal).Reaches (es ++ fs)
      (Search.attempt file (c.name :: c.arguments) >>= rest) := by
  obtain ⟨rest, hlaunch⟩ := Search.reaches_launch hfile
  refine ⟨fun e => rest e >>= fun _ => exit 1, ?_⟩
  rw [runInChild_external hc]
  refine (hes.bind _).trans ?_
  rw [done_bind, afterSilence, if_neg hnul, ← Program.bind_assoc]
  exact hlaunch.bind _

theorem carriesOut_runInChild (s : State) (c : Command) (isTerminal : Bool) :
    CarriesOut s c isTerminal (c.runInChild s isTerminal) where
  cd hc es code := exits_runInChild_cd (Command.builtin?_eq_cd_iff.2 hc)
  exit hc es code := exits_runInChild_exit (Command.builtin?_eq_exit_iff.2 hc)
  tries hc es d again k h := by
    have hcalls : (c.runInChild s isTerminal).Calls (fun _ d => c.Tries d) (fun _ _ => True)
        false := calls_runInChild_external hc fun _ h => h
    exact (hcalls.of_reaches h).2.1
  loud hc es e hes := by
    rw [runInChild_external hc, exits_bind_iff]
    exact .inr ⟨.error e, es, [], (List.append_nil es).symm, hes, exits_exit_iff.2 ⟨rfl, rfl⟩⟩
  invalid hc es hes hnul := by
    rw [runInChild_external hc, exits_bind_iff]
    refine .inr ⟨.ok (), es, [], (List.append_nil es).symm, hes, ?_⟩
    rw [afterSilence, if_pos hnul]
    exact exits_exit_iff.2 ⟨rfl, rfl⟩
  executes hc es fs file hes hnul hfile := by
    obtain ⟨rest, h⟩ := reaches_runInChild_attempt hc hes hnul hfile
    exact ⟨⟨_, _, h⟩, _, _, h.trans (Search.reaches_attempt_script rest)⟩

end Children

end PipeShell
