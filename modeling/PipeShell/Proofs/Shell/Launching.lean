import PipeShell.Proofs.Kernel.Executable
import PipeShell.Proofs.Shell.Dispatch
import PipeShell.Proofs.Shell.Progress
import PipeShell.Proofs.Shell.Search

/-! Launching a command alone and at the end of a pipeline. A lone command is looked for before it
is given a process, or before it is run in the one it has been given; the terminal stage of a
pipeline just tries the files of the search path. Main statement: if the stage finds its file under
its own path or in a directory that the search path names, then the lone command is found as well,
and it executes the same file, redirected or not (`lone_launch_of_terminal`). A file that is found
in the working directory because a component of the path is empty is no such file
(`terminal_launch_alone`). -/
namespace PipeShell

open Program

/-- What a process that looks for a program has around it. No variable of an environment has a NUL
byte. -/
structure Scene where
  files : FileTree
  credentials : Credentials
  directory : Nat
  path : Option Bytes
  nul_notMem : ∀ p ∈ path, Byte.nul ∉ p

namespace Scene

variable {ι ρ α : Type} {x : Scene} {es fs : List Event} {file path : Bytes} {args argv : List Bytes}

def Executable (x : Scene) (path : Bytes) : Prop :=
  x.files.Executable x.credentials x.directory path

def execute (x : Scene) (path : Bytes) (argv : List Bytes) : Except Errno (Bytes × List Bytes) :=
  x.files.program x.credentials x.directory Header.depth path argv

/-- Whether the reply to a call is the one that it has in the scene. Only the calls by which
programs are looked for and executed have replies that depend on it. -/
def Tells (x : Scene) : Event → Prop
  | ⟨.access path, r⟩ => (r : Except Errno Unit) = .ok () ↔ x.Executable path
  | ⟨.environmentPath, r⟩ => (r : Option Bytes) = x.path
  | ⟨.exec path argv, e⟩ => x.execute path argv = .error e
  | _ => True

@[simp] theorem tells_access_iff {r : Except Errno Unit} :
    x.Tells ⟨.access path, r⟩ ↔ (r = .ok () ↔ x.Executable path) := Iff.rfl

@[simp] theorem tells_environmentPath_iff {r : Option Bytes} :
    x.Tells ⟨.environmentPath, r⟩ ↔ r = x.path := Iff.rfl

@[simp] theorem tells_exec_iff {e : Errno} :
    x.Tells ⟨.exec path argv, e⟩ ↔ x.execute path argv = .error e := Iff.rfl

theorem tells_of_not_decides {e : Event} (h : e.call.decides = false) : x.Tells e := by
  obtain ⟨c, r⟩ := e
  cases c <;> trivial

structure Surrounds (x : Scene) (s : System ι ρ) (p : Process ι ρ) : Prop where
  files : x.files = s.files
  credentials : x.credentials = p.credentials
  directory : x.directory = p.directory
  path : x.path = p.searchPath

theorem Surrounds.tells {s s' : System ι ρ} {p : Process ι ρ} {pid : Pid} {c : Syscall}
    {r : c.Reply} (h : x.Surrounds s p) (ha : s.answer pid p c = some (r, s')) :
    x.Tells ⟨c, r⟩ := by
  obtain ⟨hfiles, hcredentials, hdirectory, hpath⟩ := h
  cases c with
  | access path =>
    obtain rfl : p.access s.files path = r := congrArg Prod.fst (Option.some.inj ha)
    rw [tells_access_iff, FileTree.access_eq_ok_iff, Executable, hfiles, hcredentials, hdirectory]
  | environmentPath =>
    obtain rfl : p.searchPath = r := congrArg Prod.fst (Option.some.inj ha)
    exact hpath.symm
  | exec path argv =>
    refine tells_exec_iff.2 ?_
    rw [execute, hfiles, hcredentials, hdirectory]
    simp only [System.answer] at ha
    split at ha
    next e he =>
      cases ha
      exact he
    · cases ha
  | _ => trivial

/-- Whether `p`, answered as the scene has it, comes through the events `es` to execute a file, and
that succeeds. -/
structure Launches (x : Scene) (p : Program α) (es : List Event) (file : Bytes)
    (args : List Bytes) : Prop where
  tells : ∀ e ∈ es, x.Tells e
  reaches : ∃ again k, p.Reaches es (call (.exec file args) again k)
  starts : ∃ image, x.execute file args = .ok image

theorem launches_append_iff {p q : Program α} (h : p.Reaches es q) (hes : ∀ e ∈ es, x.Tells e) :
    x.Launches p (es ++ fs) file args ↔ x.Launches q fs file args := by
  constructor
  · rintro ⟨htells, ⟨again, k, hr⟩, hstarts⟩
    exact ⟨fun e he => htells e (List.mem_append_right es he), ⟨again, k, h.append_iff.1 hr⟩, hstarts⟩
  · rintro ⟨htells, ⟨again, k, hr⟩, hstarts⟩
    refine ⟨?_, ⟨again, k, h.trans hr⟩, hstarts⟩
    simp only [List.mem_append, or_imp, forall_and]
    exact ⟨hes, htells⟩

theorem Launches.of_bind {β : Type} {p : Program α} {f : α → Program β}
    (h : x.Launches (p >>= f) es file args) : x.Launches p es file args ∨
      ∃ a es₁ es₂, es = es₁ ++ es₂ ∧ (∀ e ∈ es₁, x.Tells e) ∧ p.Returns es₁ a ∧
        x.Launches (f a) es₂ file args := by
  obtain ⟨htells, ⟨again, k, hr⟩, hstarts⟩ := h
  obtain ⟨c, again', k', h₁, hc⟩ | ⟨a, es₁, es₂, rfl, h₁, h₂⟩ := reaches_bind_cases hr
  · obtain rfl : Syscall.exec file args = c := by injection hc
    exact .inl ⟨htells, ⟨again', k', h₁⟩, hstarts⟩
  · simp only [List.mem_append, or_imp, forall_and] at htells
    exact .inr ⟨a, es₁, es₂, rfl, htells.1, h₁, htells.2, ⟨again, k, h₂⟩, hstarts⟩

theorem Launches.bind {β : Type} {p : Program α} (h : x.Launches p es file args)
    (f : α → Program β) : x.Launches (p >>= f) es file args := by
  obtain ⟨htells, ⟨again, k, hr⟩, hstarts⟩ := h
  exact ⟨htells, ⟨again, _, hr.bind f⟩, hstarts⟩

@[simp] theorem not_launches_done {a : α} : ¬x.Launches (done a) es file args := by
  rintro ⟨-, ⟨again, k, hr⟩, -⟩
  cases (reaches_done_iff.1 hr).2

theorem Launches.of_ask {c : Syscall} (h : x.Launches (ask c) es file args) :
    es = [] ∧ c = .exec file args := by
  obtain ⟨-, ⟨again, k, hr⟩, -⟩ := h
  obtain ⟨rfl, hask⟩ | ⟨r, -, hdone⟩ := reaches_ask_iff.1 hr
  · injection hask with hc
    exact ⟨rfl, hc.symm⟩
  · cases hdone

theorem launches_never_iff {p : Program Empty} :
    x.Launches (never p : Program α) es file args ↔ x.Launches p es file args := by
  constructor
  · rintro ⟨htells, ⟨again, k, hr⟩, hstarts⟩
    obtain ⟨q, hq, he⟩ := reaches_never_iff.1 hr
    cases q with
    | done a => exact a.elim
    | call c again' k' =>
      obtain rfl : Syscall.exec file args = c := by injection he
      exact ⟨htells, ⟨again', k', hq⟩, hstarts⟩
  · rintro ⟨htells, ⟨again, k, hr⟩, hstarts⟩
    exact ⟨htells, ⟨again, _, reaches_never_iff.2 ⟨_, hr, rfl⟩⟩, hstarts⟩

end Scene

namespace Search

open Scene (not_launches_done)

variable {x : Scene} {es pre : List Event} {file name path : Bytes} {args argv : List Bytes}

/-- What is meant when `path` is executed after executing `file` has failed with `e`: if `file` was
no program, it has been handed to the script shell. -/
def meant (file path : Bytes) (e : Errno) : Bytes := if e = Errno.notExecutable then file else path

/-- The file that has been found when `path` is executed after the events `es`. -/
def found (es : List Event) (path : Bytes) : Bytes :=
  match es.getLast? with
  | some ⟨.exec file _, e⟩ => meant file path e
  | _ => path

def Rests (es : List Event) : Prop :=
  ∀ file argv e, es.getLast? = some ⟨.exec file argv, e⟩ → e ≠ Errno.notExecutable

theorem found_of_rests (h : Rests es) : found es path = path := by
  unfold found
  split
  next file argv e he => exact if_neg (h file argv e he)
  · rfl

theorem Rests.append {fs : List Event} (h : Rests es) (hfs : Rests fs) : Rests (es ++ fs) := by
  intro file argv e he
  rw [List.getLast?_append] at he
  cases hl : fs.getLast? with
  | none => exact h file argv e (by simpa [hl] using he)
  | some e' => exact hfs file argv e (by simpa [hl] using he)

theorem rests_of_calls (h : ∀ e ∈ es, ∀ file argv, e.call ≠ .exec file argv) : Rests es := by
  intro file argv e he
  exact absurd rfl (h _ (List.mem_of_getLast? he) file argv)

theorem found_append_of_notExecutable (es : List Event) (file path : Bytes) (argv : List Bytes) :
    found (es ++ [⟨.exec file argv, Errno.notExecutable⟩]) path = file := by
  simp [found, meant]

theorem found_of_attempt (hpre : Rests pre) (h : x.Launches (attempt path argv) es file args) :
    found (pre ++ es) file = path ∧ x.Executable path := by
  obtain h | ⟨e, es₁, es₂, rfl, htells, h₁, h₂⟩ := h.of_bind
  · obtain ⟨rfl, hc⟩ := h.of_ask
    injection hc with hpath hargv
    subst hpath hargv
    rw [List.append_nil]
    exact ⟨found_of_rests hpre, FileTree.executable_of_program rfl (.inr h.starts)⟩
  · obtain rfl := returns_ask_iff.1 h₁
    split at h₂
    · -- the file is no program, and the script shell is executed in its place
      subst e
      have he : x.execute path argv = .error Errno.notExecutable := htells _ List.mem_cons_self
      obtain ⟨rfl, -⟩ := h₂.of_ask
      exact ⟨found_append_of_notExecutable pre path file argv,
        FileTree.executable_of_program he (.inl rfl)⟩
    · exact absurd h₂ not_launches_done

theorem rests_append_of_ne {e : Errno} (he : e ≠ Errno.notExecutable) (es : List Event)
    (path : Bytes) (argv : List Bytes) : Rests (es ++ [⟨.exec path argv, e⟩]) := by
  intro file args e' hlast
  rw [List.getLast?_concat] at hlast
  cases hlast
  exact he

theorem rests_of_attempt {e : Errno} (h : (attempt path argv).Returns es e)
    (he : isPassedOver e = true) : Rests es := by
  have hne : e ≠ Errno.notExecutable := by
    rintro rfl
    cases he
  unfold attempt at h
  obtain ⟨e', es₁, es₂, rfl, h₁, h₂⟩ := returns_bind_iff.1 h
  obtain rfl := returns_ask_iff.1 h₁
  split at h₂
  · obtain rfl := returns_ask_iff.1 h₂
    exact rests_append_of_ne hne _ _ _
  · obtain ⟨rfl, rfl⟩ := returns_done_iff.1 h₂
    exact rests_append_of_ne hne [] _ _

theorem found_of_attemptAll {limit : Nat} {dirs : List Bytes} {denied : Bool} {last : Errno}
    (hpre : Rests pre) (h : x.Launches (attemptAll limit name argv dirs denied last) es file args) :
    x.Executable (found (pre ++ es) file) ∧ (found (pre ++ es) file = name ∨
      ∃ d ∈ dirs, d ≠ [] ∧ found (pre ++ es) file = d ++ Byte.slash :: name) := by
  induction dirs generalizing denied last es pre with
  | nil => exact absurd h not_launches_done
  | cons d ds ih =>
    rw [attemptAll] at h
    split at h
    · exact absurd h not_launches_done
    obtain h | ⟨e, es₁, es₂, rfl, -, h₁, h₂⟩ := h.of_bind
    · obtain ⟨hfound, hexecutable⟩ := found_of_attempt hpre h
      refine ⟨hfound ▸ hexecutable, ?_⟩
      split at hfound
      · exact .inl hfound
      next hd =>
        exact .inr ⟨d, List.mem_cons_self, fun h => hd (.inl (by simp [h])), hfound⟩
    · split at h₂
      next he =>
        obtain ⟨hexecutable, hfound⟩ := ih (hpre.append (rests_of_attempt h₁ he)) h₂
        rw [List.append_assoc] at hexecutable hfound
        refine ⟨hexecutable, hfound.imp_right ?_⟩
        rintro ⟨d', hd', hfound⟩
        exact ⟨d', List.mem_cons_of_mem d hd', hfound⟩
      · exact absurd h₂ not_launches_done

theorem found_of_launch (hpre : Rests pre) (h : x.Launches (launch name argv) es file args) :
    name ≠ [] ∧ x.Executable (found (pre ++ es) file) ∧ (found (pre ++ es) file = name ∨
      Byte.slash ∉ name ∧ ∃ d ∈ (x.path.getD defaultPath).splitOn Byte.colon, d ≠ [] ∧
        found (pre ++ es) file = d ++ Byte.slash :: name) := by
  unfold launch at h
  split at h
  · exact absurd h not_launches_done
  next hname =>
    refine ⟨hname, ?_⟩
    split at h
    · obtain ⟨hfound, hexecutable⟩ := found_of_attempt hpre h
      exact ⟨hfound ▸ hexecutable, .inl hfound⟩
    next hslash =>
      obtain h | ⟨r, es₁, es₂, rfl, htells, h₁, h₂⟩ := h.of_bind
      · cases h.of_ask.2
      · obtain rfl := returns_ask_iff.1 h₁
        obtain rfl : r = x.path := htells _ List.mem_cons_self
        split at h₂
        · exact absurd h₂ not_launches_done
        · have hasked : Rests [⟨.environmentPath, x.path⟩] := rests_of_calls (by simp)
          obtain ⟨hexecutable, hfound⟩ := found_of_attemptAll (hpre.append hasked) h₂
          rw [List.append_assoc] at hexecutable hfound
          exact ⟨hexecutable, hfound.imp_right fun h => ⟨hslash, h⟩⟩

end Search

section Commands

variable {x : Scene} {st : State} {l : CommandLine} {c : Command} {es : List Event} {file : Bytes}
  {args : List Bytes}

theorem launch_of_runInChild (hb : c.builtin? = none)
    (h : x.Launches (c.runInChild st true) es file args) : Byte.nul ∉ c.name ∧ ∃ es₁ es₂,
      es = es₁ ++ es₂ ∧ Search.Rests es₁ ∧
      x.Launches (Search.launch c.name (c.name :: c.arguments)) es₂ file args := by
  rw [runInChild_external hb, silenceStderr_eq] at h
  obtain h | ⟨y, es₁, es₂, rfl, -, h₁, h⟩ := h.of_bind
  · obtain ⟨-, ⟨again, k, hr⟩, -⟩ := h
    have hcalls : (openAt st.nullSink .write Fd.stderr).Calls (fun _ c => c.decides = false)
        (fun _ _ => True) false :=
      calls_openAt (fun c h => by cases c <;> first | rfl | cases h) fun _ => trivial
    cases (hcalls.of_reaches hr).2.1
  · have hrests : Search.Rests es₁ := Search.rests_of_calls fun e he file argv hc => by
      have hd := not_decides_of_openAt h₁ e he
      rw [hc] at hd
      cases hd
    unfold afterSilence at h
    split at h
    · cases h.of_ask.2
    · split at h
      · cases h.of_ask.2
      next hnul =>
        obtain h | ⟨e, es₃, es₄, rfl, -, -, h⟩ := h.of_bind
        · exact ⟨fun hm => hnul (.inl hm), es₁, es₂, rfl, hrests, h⟩
        · cases h.of_ask.2

def Scene.executables (x : Scene) : Set Bytes := {path | x.Executable path}

theorem nul_notMem_join {d name : Bytes} (hd : Byte.nul ∉ d) (hname : Byte.nul ∉ name) :
    Byte.nul ∉ Search.join d name := by
  have hslash : Byte.nul ≠ Byte.slash := by decide
  unfold Search.join
  split <;> simp [hd, hname, hslash]

theorem executable_join {d name : Bytes} (h : x.Executable (d ++ Byte.slash :: name)) :
    x.Executable (Search.join d name) := by
  unfold Search.join
  split
  · exact FileTree.executable_of_double_slash ‹_› h
  · exact h

/-- What can be launched other than from the working directory can be found. -/
theorem launchable_of_runInChild (hb : c.builtin? = none)
    (h : x.Launches (c.runInChild st true) es file args)
    (hfound : Byte.slash ∈ c.name ∨ x.path ≠ none ∧ Search.found es file ≠ c.name) :
    Search.Launchable x.executables x.path c.name := by
  obtain ⟨hnul, es₁, es₂, rfl, hrests, h⟩ := launch_of_runInChild hb h
  obtain ⟨hname, hexecutable, hcases⟩ := Search.found_of_launch hrests h
  refine ⟨hname, ?_⟩
  by_cases hslash : Byte.slash ∈ c.name
  · obtain heq | ⟨hno, -⟩ := hcases
    · exact .inl ⟨hslash, hnul, heq ▸ hexecutable⟩
    · exact absurd hslash hno
  · obtain ⟨hpath, hne⟩ := hfound.resolve_left hslash
    obtain ⟨-, d, hd, hdne, heq⟩ := hcases.resolve_left hne
    obtain ⟨p, hp⟩ := Option.ne_none_iff_exists'.1 hpath
    rw [heq] at hexecutable
    rw [hp, Option.getD_some] at hd
    have hdnul : Byte.nul ∉ d := fun hm =>
      x.nul_notMem p hp ((Bytes.sublist_of_mem_splitOn hd).subset hm)
    rw [Bytes.splitOn_eq_list] at hd
    exact .inr ⟨hslash, d, hp ▸ hd, hdne, nul_notMem_join hdnul hnul, executable_join hexecutable⟩

/-- Whether the terminal stage of a pipeline, once it has been wired, comes through the events `es`
to execute a file. -/
def LaunchesAtEnd (x : Scene) (st : State) (l : CommandLine) (es : List Event) (file : Bytes)
    (args : List Bytes) : Prop :=
  ∃ ls pids ws cs, ls.length + 1 = l.commands.length ∧ pids.length = ls.length ∧
    (wireStage (Link.before ls pids.length) ls[pids.length]? l.redirect).Returns ws (.ok ()) ∧
    (Link.closeAll ls).Returns cs () ∧
    x.Launches (runPipeline st l) (openings ls ++ wired pids ws cs ++ es) file args

theorem reaches_terminal {ls : List Link} {pids : List Pid} {ws cs : List Event}
    (hn : ls.length + 1 = l.commands.length) (hpids : pids.length = ls.length)
    (hc : l.commands.getLast? = some c)
    (hws : (wireStage (Link.before ls pids.length) ls[pids.length]? l.redirect).Returns ws (.ok ()))
    (hcs : (Link.closeAll ls).Returns cs ()) :
    (runPipeline st l).Reaches (openings ls ++ wired pids ws cs) (never (c.runInChild st true)) := by
  have hlast : pids.length + 1 = l.commands.length := by omega
  rw [List.getLast?_eq_getElem?, ← hlast, Nat.add_sub_cancel] at hc
  have hstage := reaches_runInChild (s := st) hn hc hws hcs
  rwa [hlast, beq_self_eq_true] at hstage

theorem LaunchesAtEnd.runInChild (hc : l.commands.getLast? = some c)
    (h : LaunchesAtEnd x st l es file args) : x.Launches (c.runInChild st true) es file args := by
  obtain ⟨ls, pids, ws, cs, hn, hpids, hws, hcs, h⟩ := h
  have hbefore : ∀ e ∈ openings ls ++ wired pids ws cs, x.Tells e :=
    fun e he => h.tells e (List.mem_append_left es he)
  rw [Scene.launches_append_iff (reaches_terminal hn hpids hc hws hcs) hbefore] at h
  exact Scene.launches_never_iff.1 h

theorem Scene.Launches.forkAndWait {child : Program Empty} (h : x.Launches child es file args) :
    x.Launches (forkAndWait child) (birth :: ⟨.defaultBrokenPipe, ()⟩ :: es) file args := by
  have hstart : (PipeShell.forkAndWait child).Reaches [birth, ⟨.defaultBrokenPipe, ()⟩]
      (never child) :=
    (inOneChild_forkAndWait child).child.trans (.next rfl (.refl _))
  exact (Scene.launches_append_iff hstart (by simp [birth, Scene.Tells])).2
    (Scene.launches_never_iff.2 h)

/-- A lone external command is launched whenever the terminal stage of a pipeline that ends in the
same command launches it and the search before does not refuse it: the child, redirected or not,
goes through the same events to execute the same file. And the search has the one answer that the
command can be launched, unless the stage has found the file in the working directory for want of a
named one. -/
theorem lone_launch_of_terminal (hpath : st.searchPath = x.path) (hb : c.builtin? = none)
    (hc : l.commands.getLast? = some c) (h : LaunchesAtEnd x st l es file args) :
    (Byte.slash ∈ c.name ∨ x.path ≠ none ∧ Search.found es file ≠ c.name →
      ∀ b, (Search.resolvable st.searchPath c.name).Answers x.Tells b ↔ b = true) ∧
    ∀ ps, (∀ e ∈ ps, x.Tells e) → (Search.resolvable st.searchPath c.name).Returns ps true →
      x.Launches (runSingle st c) (ps ++ birth :: ⟨.defaultBrokenPipe, ()⟩ :: es) file args ∧
      ∀ (r : Redirect) y ns ts, (openAt st.nullSink .write Fd.stderr).Returns ns y →
        (openAt r.target (.create r.mode) Fd.stdout).Returns ts (.ok ()) →
        x.Launches (runRedirected st c r)
          (birth :: ⟨.defaultBrokenPipe, ()⟩ :: (ns ++ ts ++ ps ++ es)) file args := by
  have hrun := h.runInChild hc
  refine ⟨fun hfound b => ?_, fun ps htells hps => ⟨?_, fun r y ns ts hns hts => ?_⟩⟩
  · have hlaunchable := launchable_of_runInChild hb hrun hfound
    rw [hpath, Search.answers_resolvable_iff (A := x.executables) fun _ _ => Iff.rfl]
    exact iff_true_right hlaunchable
  · have hsingle : (runSingle st c).Reaches ps (forkAndWait (c.runInChild st true)) := by
      unfold runSingle
      rw [hb]
      exact hps.bind _
    exact (Scene.launches_append_iff hsingle htells).2 hrun.forkAndWait
  · have hbefore : ∀ e ∈ ns ++ ts ++ ps, x.Tells e := by
      simp only [List.mem_append]
      rintro e ((he | he) | he)
      · exact Scene.tells_of_not_decides (not_decides_of_openAt hns e he)
      · exact Scene.tells_of_not_decides (not_decides_of_openAt hts e he)
      · exact htells e he
    have hchild := reaches_redirectedChild hns hts (.inr ⟨hb, hps⟩)
    exact ((Scene.launches_append_iff hchild hbefore).2 hrun).forkAndWait

end Commands

namespace TwoStages

def scene (directory : Nat) (path : Option Bytes) (h : ∀ p ∈ path, Byte.nul ∉ p) : Scene :=
  ⟨files, user, directory, path, h⟩

variable {directory : Nat} {path : Option Bytes} {h : ∀ p ∈ path, Byte.nul ∉ p}

def silencing : List Event :=
  [⟨.openFile (Bytes.ofAscii "/dev/null") .write, .ok 3⟩, ⟨.dup2 3 Fd.stderr, .ok ()⟩,
    ⟨.close 3, .ok ()⟩]

theorem launchesAtEnd {es : List Event} {file : Bytes} {args : List Bytes}
    (hx : (scene directory path h).Launches (Search.launch cat.name [cat.name]) es file args) :
    LaunchesAtEnd (scene directory path h) (State.ofSearchPath path) line (silencing ++ es) file
      args := by
  have hrun : (scene directory path h).Launches (cat.runInChild (State.ofSearchPath path) true)
      (silencing ++ es) file args := by
    have hsilence : (cat.runInChild (State.ofSearchPath path) true).Reaches silencing
        ((Search.launch cat.name [cat.name] >>= fun e => done (SetupError.system e)) >>=
          fun _ => exit 1) :=
      .next rfl (.next rfl (.next rfl (.refl _)))
    refine (Scene.launches_append_iff hsilence ?_).2 ((hx.bind _).bind _)
    simp [silencing, Scene.Tells]
  have hwire : (wireStage (Link.before links 1) links[1]? line.redirect).Returns
      [⟨.dup2 3 Fd.stdin, .ok ()⟩] (.ok ()) := .next rfl (.refl _)
  have hclose : (Link.closeAll links).Returns [⟨.close 3, .ok ()⟩, ⟨.close 4, .ok ()⟩] () :=
    .next rfl (.next rfl (.refl _))
  have hstage : (runPipeline (State.ofSearchPath path) line).Reaches
      (openings links ++ wired [2] _ _) (never (cat.runInChild (State.ofSearchPath path) true)) :=
    reaches_terminal rfl rfl rfl hwire hclose
  refine ⟨links, [2], _, _, rfl, rfl, hwire, hclose, (Scene.launches_append_iff hstage ?_).2
    (Scene.launches_never_iff.2 hrun)⟩
  simp [openings, links, wired, forks, birth, Scene.Tells]

theorem execute_bin_cat :
    (scene 0 path h).execute (Bytes.ofAscii "/bin/cat") [cat.name] = .ok (cat.name, [cat.name]) :=
  program_cat

theorem execute_cat : (scene 2 path h).execute cat.name [cat.name] = .ok (cat.name, [cat.name]) := by
  have hplace : files.place user 2 cat.name = .ok (.entry 2 cat.name (some 4) false) := by
    show files.follow user FileTree.linkLimit 2 [cat.name] false = _
    rw [FileTree.follow]
    rfl
  have hfind : files.find user 2 cat.name = .ok (4, ⟨.image cat.name, 0o755, 0, 0⟩) := by
    rw [FileTree.find, hplace]
    rfl
  have hgrants : Inode.grants ⟨.image cat.name, 0o755, 0, 0⟩ user .execute = true := rfl
  exact FileTree.program_of_image hfind hgrants rfl (by decide)

end TwoStages

/-- With `/bin` in the search path, the second of two stages and the same command alone execute the
same file. -/
theorem lone_launch_of_terminal_cat :
    let st := State.ofSearchPath (some (Bytes.ofAscii "/bin"))
    let x := TwoStages.scene 0 st.searchPath (by decide)
    let es := TwoStages.silencing ++ [⟨.environmentPath, st.searchPath⟩]
    let file := Bytes.ofAscii "/bin/cat"
    let args := [TwoStages.cat.name]
    LaunchesAtEnd x st TwoStages.line es file args ∧
      Search.found es file ≠ TwoStages.cat.name ∧
      (∀ b, (Search.resolvable st.searchPath TwoStages.cat.name).Answers x.Tells b ↔ b = true) ∧
      x.Launches (runSingle st TwoStages.cat)
        ([⟨.access file, .ok ()⟩] ++ birth :: ⟨.defaultBrokenPipe, ()⟩ :: es) file args := by
  intro st x es file args
  have hend : LaunchesAtEnd x st TwoStages.line es file args :=
    TwoStages.launchesAtEnd ⟨by simp [TwoStages.scene], ⟨_, _, .next rfl (.refl _)⟩, _,
      TwoStages.execute_bin_cat⟩
  have hfound : Search.found es file ≠ TwoStages.cat.name := by decide
  have hexecutable : x.Executable file :=
    FileTree.executable_of_program TwoStages.execute_bin_cat (.inr ⟨_, rfl⟩)
  obtain ⟨hanswers, hlaunches⟩ := lone_launch_of_terminal rfl rfl rfl hend
  exact ⟨hend, hfound, hanswers (.inr ⟨by decide, hfound⟩),
    (hlaunches [⟨.access file, .ok ()⟩] (by simpa using hexecutable) (.next rfl (.refl _))).1⟩

/-- With an empty component in the search path, or without a search path, the second of two stages
executes a file, and the same command alone is refused without a call. -/
theorem terminal_launch_alone :
    (∃ es, LaunchesAtEnd (TwoStages.scene 2 (some []) (by decide)) (State.ofSearchPath (some []))
      TwoStages.line es TwoStages.cat.name [TwoStages.cat.name]) ∧
    runSingle (State.ofSearchPath (some [])) TwoStages.cat = done 1 ∧
    (∃ es, LaunchesAtEnd (TwoStages.scene 0 none (by decide)) (State.ofSearchPath none)
      TwoStages.line es (Bytes.ofAscii "/bin/cat") [TwoStages.cat.name]) ∧
    runSingle (State.ofSearchPath none) TwoStages.cat = done 1 ∧
    ∀ (x : Scene) es file args, ¬x.Launches (done 1 : Program UInt8) es file args := by
  have hempty : (TwoStages.scene 2 (some []) (by decide)).Launches
      (Search.launch TwoStages.cat.name [TwoStages.cat.name]) [⟨.environmentPath, some []⟩]
      TwoStages.cat.name [TwoStages.cat.name] :=
    ⟨by simp [TwoStages.scene], ⟨_, _, .next rfl (.refl _)⟩, _, TwoStages.execute_cat⟩
  have hnone : (TwoStages.scene 0 none (by decide)).Launches
      (Search.launch TwoStages.cat.name [TwoStages.cat.name]) [⟨.environmentPath, none⟩]
      (Bytes.ofAscii "/bin/cat") [TwoStages.cat.name] :=
    ⟨by simp [TwoStages.scene], ⟨_, _, .next rfl (.refl _)⟩, _, TwoStages.execute_bin_cat⟩
  exact ⟨⟨_, TwoStages.launchesAtEnd hempty⟩, rfl, ⟨_, TwoStages.launchesAtEnd hnone⟩, rfl,
    fun x es file args => Scene.not_launches_done⟩

end PipeShell
