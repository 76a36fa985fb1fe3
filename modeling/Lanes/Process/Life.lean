import Lanes.Lib.Run

/-!
# The life of the process

`main`, `start_supervisor`, `new_thread`, `supervisor` and `signal_handler`: two threads that take
their steps in any order, and signals that arrive between any two of them. What the set-up and the
configuration come to is a parameter (`World`); here it matters which threads are started and that a
call may end the process.

* `mainStep`, `supStep` and `Proc.signal` are the statements of the two threads and what a signal
  does, and `procStep` is one of them.
* `ProcInv` is the order of the two threads: who has been created, who has been joined, and what
  that says of `global.run` and of the configuration file.
* `exit_after_sigterm` is what an exit with status 0 means.

The threads that the supervisor starts are the subject of `Process.Registered`, and
`Process.Termination` shows that a `SIGTERM` is followed by the end.

Two things are outside the model. A process that `SIGSTOP` has stopped takes no step, and nothing
but `SIGCONT` resumes it, for which the program has a handler that ends it; so `SIGSTOP` is a signal
without effect here, and a run in which the process is never resumed is one that is not continued.
And behind `drop_privs` a system call that the filter does not list kills the thread that makes it:
that the supervisor makes none is an assumption, for otherwise it would end at its first `sleep`,
`pthread_join` would return and `main` would exit with status 0 without any `SIGTERM`.
-/

namespace Lanes

/-! ## States

A thread is at one of its statements. The statements of `new_thread` are listed with either thread,
since both run it. -/

/-- `SUP`, `IO` and `LBR`. -/
inductive Job where
  | sup
  | io
  | lbr
  deriving Repr, DecidableEq

/-- What the calls of `main` and of `supervisor` come to. -/
structure World where
  /-- `parse_args` and `load_config` return. -/
  parsed : Bool
  loaded : Bool
  /-- The threads that `start_networking` starts, and whether it returns. -/
  jobs : List Job
  noSup : Job.sup ∉ jobs
  networked : Bool
  /-- `drop_privs` returns, and no call behind it is one that the filter kills. -/
  dropped : Bool

/-- The next statement of `main`, with those of `start_supervisor` and `new_thread` that it runs. -/
inductive MainAt where
  /-- `signal (i, signal_handler)`. -/
  | install (i : Nat)
  | parseArgs
  | loadConfig
  | setRun
  | setRunning
  | initThreadList
  | takeId
  | create (id : Nat)
  | count (id : Nat)
  | join (id : Nat)
  | register (id : Nat)
  | unloadConfig
  | done
  deriving Repr, DecidableEq

/-- The next statement of `supervisor`, with those of `new_thread` that it runs; `todo` are the
threads still to start. -/
inductive SupAt where
  | unborn
  | takeId (todo : List Job)
  | create (id : Nat) (job : Job) (todo : List Job)
  | count (id : Nat) (job : Job) (todo : List Job)
  | register (id : Nat) (job : Job) (todo : List Job)
  | dropPrivs
  | print
  | test
  | showOn
  | showOff
  | ended
  deriving Repr, DecidableEq

inductive Ending where
  | exit (code : Nat)
  | killed (signal : Nat)
  deriving Repr, DecidableEq

/-- `GTS`: the number of threads, and of those of each job. -/
structure Gts where
  gtc : Nat
  supc : Nat
  ioc : Nat
  lbrc : Nat
  deriving Repr, DecidableEq

def Gts.count (g : Gts) : Job → Gts
  | .sup => { g with supc := g.supc + 1 }
  | .io => { g with ioc := g.ioc + 1 }
  | .lbr => { g with lbrc := g.lbrc + 1 }

structure Proc where
  main : MainAt
  sup : SupAt
  /-- `global.run`. -/
  run : Bool
  gts : Gts
  /-- `MTL`, the newest entry first. -/
  mtl : List (Nat × Job)
  configOpen : Bool
  showStats : Bool
  ending : Option Ending
  deriving Repr, DecidableEq

/-! ## Signals

`main` installs `signal_handler` for the signals 0 to 31 one after the other, so a signal may arrive
before its handler. The handler runs between two steps of the threads. -/

def sigKill : Nat := 9
def sigSegv : Nat := 11
def sigTerm : Nat := 15
def sigChld : Nat := 17
def sigStop : Nat := 19
def sigTtou : Nat := 22
def sigProf : Nat := 27

/-- The signals whose default is not to end the process: `CHLD`, `CONT`, `STOP`, `TSTP`, `TTIN`,
`TTOU`, `URG` and `WINCH`. -/
def harmless : List Nat := [17, 18, 19, 20, 21, 22, 23, 28]

/-- The first signal that has no handler yet. -/
def MainAt.installed : MainAt → Nat
  | .install i => i
  | _ => 32

/-- `signal_handler`. -/
def signalHandler (sig : Nat) (s : Proc) : Proc :=
  if sig = sigSegv ∨ sig = sigKill then { s with ending := some (.exit 0xDEAD) }
  else if sig = sigChld then s
  else if sig = sigTerm then { s with run := false }
  else if sig = sigTtou ∨ sig = sigProf then s
  else { s with ending := some (.exit 1) }

/-- A signal arrives. `KILL` and `STOP` cannot be caught; a stopped process is one that takes no
step. -/
def Proc.signal (s : Proc) (sig : Nat) : Proc :=
  if sig < s.main.installed ∧ sig ≠ sigKill ∧ sig ≠ sigStop then signalHandler sig s
  else if sig ∈ harmless then s
  else { s with ending := some (.killed sig) }

/-! ## Steps

One statement a step. A call that can end the process is followed by what the source does when it
returns and by `die` when it fails; which of the two is a fact about the `World`. -/

/-- `exit (1)` unless the call returns. -/
def Proc.orDie (s : Proc) (returns : Bool) (next : Proc) : Proc :=
  if returns then next else { s with ending := some (.exit 1) }

/-- `i=GTS.gtc`, then `++GTS.gtc`. -/
def Gts.taken (g : Gts) : Gts := { g with gtc := g.gtc + 1 }

/-- The next statement of `main`. -/
def mainStep (w : World) (s : Proc) : Option Proc :=
  match s.main with
  | .install i => some { s with main := if i + 1 < 32 then .install (i + 1) else .parseArgs }
  | .parseArgs => some (s.orDie w.parsed { s with main := .loadConfig })
  | .loadConfig => some (s.orDie w.loaded { s with main := .setRun, configOpen := true })
  | .setRun => some { s with main := .setRunning, run := true }
  | .setRunning => some { s with main := .initThreadList }
  | .initThreadList => some { s with main := .takeId, mtl := [] }
  | .takeId => some { s with main := .create s.gts.gtc, gts := s.gts.taken }
  | .create id => some { s with main := .count id, sup := .takeId w.jobs }
  | .count id => some { s with main := .join id, gts := s.gts.count .sup }
  -- `pthread_join` waits for the supervisor
  | .join id => if s.sup = .ended then some { s with main := .register id } else none
  | .register id => some { s with main := .unloadConfig, mtl := (id, .sup) :: s.mtl }
  | .unloadConfig => some { s with main := .done, configOpen := false }
  | .done => some { s with ending := some (.exit 0) }

/-- The next statement of `supervisor`. -/
def supStep (w : World) (s : Proc) : Option Proc :=
  match s.sup with
  | .unborn => none
  | .takeId [] => some (s.orDie w.networked { s with sup := .dropPrivs })
  | .takeId (job :: todo) => some { s with sup := .create s.gts.gtc job todo, gts := s.gts.taken }
  | .create id job todo => some { s with sup := .count id job todo }
  | .count id job todo => some { s with sup := .register id job todo, gts := s.gts.count job }
  | .register id job todo => some { s with sup := .takeId todo, mtl := (id, job) :: s.mtl }
  | .dropPrivs => some (s.orDie w.dropped { s with sup := .print })
  | .print => some { s with sup := .test }
  | .test => some { s with sup := if s.run then .showOn else .ended }
  | .showOn => some { s with sup := .showOff, showStats := true }
  | .showOff => some { s with sup := .test, showStats := false }
  | .ended => none

inductive ProcAction where
  | main
  | sup
  | signal (sig : Nat)
  deriving Repr, DecidableEq

def procStep (w : World) (s : Proc) (a : ProcAction) : Option Proc :=
  if s.ending.isSome then none
  else
    match a with
    | .main => mainStep w s
    | .sup => supStep w s
    | .signal sig => if 0 < sig ∧ sig ≤ 64 then some (s.signal sig) else none

/-- The process as it is started with arguments. -/
def freshProc : Proc where
  main := .install 0
  sup := .unborn
  run := false
  gts := ⟨0, 0, 0, 0⟩
  mtl := []
  configOpen := false
  showStats := false
  ending := none

/-! ## Where the threads are

Predicates on the place of a thread, one for each fact that a later statement relies on, and the
number of statements left, for the module about termination. -/

namespace MainAt

/-- `global.run` has been set. -/
def armed : MainAt → Bool
  | .install _ | .parseArgs | .loadConfig | .setRun => false
  | _ => true

/-- The supervisor has been created. -/
def started : MainAt → Bool
  | .count _ | .join _ | .register _ | .unloadConfig | .done => true
  | _ => false

/-- `pthread_join` has returned. -/
def joined : MainAt → Bool
  | .register _ | .unloadConfig | .done => true
  | _ => false

/-- The configuration file is open. -/
def reading : MainAt → Bool
  | .install _ | .parseArgs | .loadConfig | .done => false
  | _ => true

/-- How many steps are left once `global.run` has been set. -/
def left : MainAt → Nat
  | .setRunning => 9
  | .initThreadList => 8
  | .takeId => 7
  | .create _ => 6
  | .count _ => 5
  | .join _ => 4
  | .register _ => 3
  | .unloadConfig => 2
  | .done => 1
  | _ => 0

end MainAt

namespace SupAt

/-- How many steps are left once `global.run` is 0. -/
def left (jobs : Nat) : SupAt → Nat
  | .unborn => 4 * jobs + 4
  | .takeId todo => 4 * todo.length + 4
  | .create _ _ todo => 4 * todo.length + 7
  | .count _ _ todo => 4 * todo.length + 6
  | .register _ _ todo => 4 * todo.length + 5
  | .dropPrivs => 3
  | .print => 2
  | .test => 1
  | .showOn => 3
  | .showOff => 2
  | .ended => 0

end SupAt

/-- The order of the two threads. -/
structure ProcInv (s : Proc) : Prop where
  unborn : s.sup = .unborn ↔ s.main.started = false
  joined : s.main.joined = true → s.sup = .ended
  down : s.sup = .ended → s.run = false
  quiet : s.main.armed = false → s.run = false
  reading : s.configOpen = s.main.reading
  returned : s.ending = some (.exit 0) → s.main = .done

section Order

variable {w : World} {s s' : Proc} {a : ProcAction} {sig : Nat}

theorem freshProc_inv : ProcInv freshProc where
  unborn := by decide
  joined := by decide
  down := by decide
  quiet := by decide
  reading := rfl
  returned := by decide

/-- A signal ends the process with a status that is not 0, clears `global.run` or does nothing. -/
theorem signal_cases (s : Proc) (sig : Nat) :
    (∃ e, s.signal sig = { s with ending := some e } ∧ e ≠ .exit 0) ∨
      (sig = sigTerm ∧ s.signal sig = { s with run := false }) ∨ s.signal sig = s := by
  unfold Proc.signal signalHandler
  split
  · split
    · exact Or.inl ⟨_, rfl, by decide⟩
    · split
      · exact Or.inr (Or.inr rfl)
      · split
        · rename_i hterm
          exact Or.inr (Or.inl ⟨hterm, rfl⟩)
        · split
          · exact Or.inr (Or.inr rfl)
          · exact Or.inl ⟨_, rfl, by decide⟩
  · split
    · exact Or.inr (Or.inr rfl)
    · exact Or.inl ⟨_, rfl, by simp⟩

theorem ProcInv.die (hi : ProcInv s) : ProcInv { s with ending := some (.exit 1) } :=
  { hi with returned := fun h => by cases h }

/-- A statement of `main` that neither starts a thread nor waits for one, and leaves `global.run`
and the file alone. -/
theorem ProcInv.mainNext (hi : ProcInv s) (halive : s.ending = none) (g : Gts)
    (l : List (Nat × Job)) {m : MainAt} (hstarted : m.started = s.main.started)
    (hjoined : m.joined = s.main.joined) (harmed : m.armed = s.main.armed)
    (hreading : m.reading = s.main.reading) : ProcInv { s with main := m, gts := g, mtl := l } where
  unborn := by rw [hstarted]; exact hi.unborn
  joined hj := hi.joined (hjoined ▸ hj)
  down := hi.down
  quiet hq := hi.quiet (harmed ▸ hq)
  reading := by rw [hreading]; exact hi.reading
  returned he := by
    rw [halive] at he
    cases he

/-- What a step of `main` does to the order of the threads, statement by statement. -/
theorem ProcInv.main (hi : ProcInv s) (halive : s.ending = none) (h : mainStep w s = some s') :
    ProcInv s' := by
  have hno : s.ending ≠ some (.exit 0) := by simp [halive]
  cases hm : s.main <;> rw [mainStep, hm] at h
  case install i =>
    obtain rfl := Option.some.inj h
    split <;> exact hi.mainNext halive _ _ (by rw [hm]; rfl) (by rw [hm]; rfl) (by rw [hm]; rfl)
      (by rw [hm]; rfl)
  case parseArgs =>
    obtain rfl := Option.some.inj h
    unfold Proc.orDie
    split
    · exact hi.mainNext halive _ _ (by rw [hm]; rfl) (by rw [hm]; rfl) (by rw [hm]; rfl)
        (by rw [hm]; rfl)
    · exact hi.die
  case loadConfig =>
    obtain rfl := Option.some.inj h
    unfold Proc.orDie
    split
    · exact
        { unborn := by rw [hi.unborn, hm]; exact iff_of_true rfl rfl
          joined := fun hj => by cases hj
          down := hi.down
          quiet := fun _ => hi.quiet (by rw [hm]; rfl)
          reading := rfl
          returned := fun he => absurd he hno }
    · exact hi.die
  case setRun =>
    obtain rfl := Option.some.inj h
    have hunborn : s.sup = .unborn := hi.unborn.mpr (by rw [hm]; rfl)
    exact
      { unborn := iff_of_true hunborn rfl
        joined := fun hj => by cases hj
        down := fun hended => by rw [hunborn] at hended; cases hended
        quiet := fun hq => by cases hq
        reading := by rw [hi.reading, hm]; rfl
        returned := fun he => absurd he hno }
  case setRunning | initThreadList | takeId | count id | register id =>
    obtain rfl := Option.some.inj h
    exact hi.mainNext halive _ _ (by rw [hm]; rfl) (by rw [hm]; rfl) (by rw [hm]; rfl)
      (by rw [hm]; rfl)
  case create id =>
    obtain rfl := Option.some.inj h
    exact
      { unborn := iff_of_false (by simp) (by simp [MainAt.started])
        joined := fun hj => by cases hj
        down := fun hended => by cases hended
        quiet := fun hq => by cases hq
        reading := by rw [hi.reading, hm]; rfl
        returned := fun he => absurd he hno }
  case join id =>
    -- the only statement that waits
    dsimp only at h
    split at h
    · rename_i hended
      obtain rfl := Option.some.inj h
      exact
        { unborn := iff_of_false (by simp [hended]) (by simp [MainAt.started])
          joined := fun _ => hended
          down := hi.down
          quiet := fun hq => by cases hq
          reading := by rw [hi.reading, hm]; rfl
          returned := fun he => absurd he hno }
    · cases h
  case unloadConfig =>
    obtain rfl := Option.some.inj h
    have hended : s.sup = .ended := hi.joined (by rw [hm]; rfl)
    exact
      { unborn := iff_of_false (by simp [hended]) (by simp [MainAt.started])
        joined := fun _ => hended
        down := hi.down
        quiet := fun hq => by cases hq
        reading := rfl
        returned := fun he => absurd he hno }
  case done =>
    obtain rfl := Option.some.inj h
    have hended : s.sup = .ended := hi.joined (by rw [hm]; rfl)
    exact
      { unborn := iff_of_false (by simp [hended]) (by simp [MainAt.started])
        joined := fun _ => hended
        down := hi.down
        quiet := fun hq => by cases hq
        reading := by rw [hi.reading, hm]
        returned := fun _ => rfl }

/-- A statement of `supervisor` that does not end it, or ends it after `global.run=0`. -/
theorem ProcInv.supNext (hi : ProcInv s) (halive : s.ending = none) (hborn : s.sup ≠ .unborn)
    (hlive : s.sup ≠ .ended) (g : Gts) (l : List (Nat × Job)) (show_ : Bool) {p : SupAt}
    (hp : p ≠ .unborn) (hdown : p = .ended → s.run = false) :
    ProcInv { s with sup := p, gts := g, mtl := l, showStats := show_ } where
  unborn := iff_of_false hp fun hs => hborn (hi.unborn.mpr hs)
  joined hj := absurd (hi.joined hj) hlive
  down := hdown
  quiet := hi.quiet
  reading := hi.reading
  returned he := by
    rw [halive] at he
    cases he

/-- The same of a step of `supervisor`, which is not yet joined then. -/
theorem ProcInv.sup (hi : ProcInv s) (halive : s.ending = none) (h : supStep w s = some s') :
    ProcInv s' := by
  have hnext := fun hborn hlive => @ProcInv.supNext s hi halive hborn hlive
  cases hs : s.sup <;> rw [supStep, hs] at h
  case unborn => cases h
  case ended => cases h
  case takeId todo =>
    cases todo with
    | nil =>
      obtain rfl := Option.some.inj h
      unfold Proc.orDie
      split
      · exact hnext (by simp [hs]) (by simp [hs]) _ _ _ (by simp) (by simp)
      · exact hi.die
    | cons job todo =>
      obtain rfl := Option.some.inj h
      exact hnext (by simp [hs]) (by simp [hs]) _ _ _ (by simp) (by simp)
  case dropPrivs =>
    obtain rfl := Option.some.inj h
    unfold Proc.orDie
    split
    · exact hnext (by simp [hs]) (by simp [hs]) _ _ _ (by simp) (by simp)
    · exact hi.die
  case create | count | register | print | showOn | showOff =>
    obtain rfl := Option.some.inj h
    exact hnext (by simp [hs]) (by simp [hs]) _ _ _ (by simp) (by simp)
  case test =>
    obtain rfl := Option.some.inj h
    refine hnext (by simp [hs]) (by simp [hs]) _ _ _ ?_ ?_
    · split <;> simp
    · cases hrun : s.run <;> simp

theorem ProcInv.signal (hi : ProcInv s) : ProcInv (s.signal sig) := by
  rcases signal_cases s sig with ⟨e, hs, he⟩ | ⟨-, hs⟩ | hs
  · rw [hs]
    exact { hi with returned := fun h => absurd (Option.some.inj h) he }
  · rw [hs]
    exact
      { hi with
        down := fun _ => rfl
        quiet := fun _ => rfl }
  · rw [hs]
    exact hi

theorem procStep_cases (h : procStep w s a = some s') : s.ending = none ∧
    (a = .main ∧ mainStep w s = some s' ∨ a = .sup ∧ supStep w s = some s' ∨
      ∃ sig, a = .signal sig ∧ s' = s.signal sig) := by
  unfold procStep at h
  split at h
  · cases h
  · rename_i halive
    refine ⟨by simpa using halive, ?_⟩
    cases a with
    | main => exact Or.inl ⟨rfl, h⟩
    | sup => exact Or.inr (Or.inl ⟨rfl, h⟩)
    | signal sig =>
      dsimp only at h
      split at h
      · exact Or.inr (Or.inr ⟨sig, rfl, (Option.some.inj h).symm⟩)
      · cases h

theorem ProcInv.step (hi : ProcInv s) (h : procStep w s a = some s') : ProcInv s' := by
  obtain ⟨halive, ⟨-, hmain⟩ | ⟨-, hsup⟩ | ⟨sig, -, rfl⟩⟩ := procStep_cases h
  · exact hi.main halive hmain
  · exact hi.sup halive hsup
  · exact hi.signal

/-- No statement of `main` clears `global.run`, and one that gets past `global.run=1` sets it. -/
theorem mainStep_run (h : mainStep w s = some s') :
    (s.run = true → s'.run = true) ∧
      (s.main.armed = false → s'.main.armed = true → s'.run = true) := by
  cases hm : s.main <;> rw [mainStep, hm] at h
  case install i =>
    obtain rfl := Option.some.inj h
    refine ⟨id, fun _ harmed => ?_⟩
    dsimp only at harmed
    split at harmed <;> cases harmed
  case parseArgs | loadConfig =>
    obtain rfl := Option.some.inj h
    unfold Proc.orDie
    split
    · exact ⟨id, fun _ harmed => by cases harmed⟩
    · exact ⟨id, fun _ harmed => by rw [hm] at harmed; cases harmed⟩
  case setRun =>
    obtain rfl := Option.some.inj h
    exact ⟨fun _ => rfl, fun _ _ => rfl⟩
  case join id =>
    dsimp only at h
    split at h
    · obtain rfl := Option.some.inj h
      exact ⟨fun hrun => hrun, fun hbefore => by cases hbefore⟩
    · cases h
  case setRunning | initThreadList | takeId | create | count | register | unloadConfig | done =>
    obtain rfl := Option.some.inj h
    exact ⟨fun hrun => hrun, fun hbefore => by cases hbefore⟩

/-- The supervisor reads `global.run` only. -/
theorem supStep_run (h : supStep w s = some s') : s'.run = s.run ∧ s'.main = s.main := by
  cases hs : s.sup <;> rw [supStep, hs] at h
  case unborn | ended => cases h
  case takeId todo =>
    cases todo with
    | nil =>
      obtain rfl := Option.some.inj h
      unfold Proc.orDie
      split <;> exact ⟨rfl, rfl⟩
    | cons job todo =>
      obtain rfl := Option.some.inj h
      exact ⟨rfl, rfl⟩
  case dropPrivs =>
    obtain rfl := Option.some.inj h
    unfold Proc.orDie
    split <;> exact ⟨rfl, rfl⟩
  case create | count | register | print | test | showOn | showOff =>
    obtain rfl := Option.some.inj h
    exact ⟨rfl, rfl⟩

/-- `global.run` goes from 1 to 0 by `SIGTERM` alone. -/
theorem run_falls (h : procStep w s a = some s') (hrun : s.run = true)
    (hdown : s'.run = false) : a = .signal sigTerm := by
  obtain ⟨halive, ⟨-, hmain⟩ | ⟨-, hsup⟩ | ⟨sig, rfl, rfl⟩⟩ := procStep_cases h
  · exact absurd (((mainStep_run hmain).1 hrun).symm.trans hdown) (by simp)
  · exact absurd (hrun.symm.trans ((supStep_run hsup).1.symm.trans hdown)) (by simp)
  · rcases signal_cases s sig with ⟨e, hs, -⟩ | ⟨hterm, -⟩ | hs
    · rw [hs] at hdown
      exact absurd (hrun.symm.trans hdown) (by simp)
    · rw [hterm]
    · rw [hs] at hdown
      exact absurd (hrun.symm.trans hdown) (by simp)

/-- `main` gets past `global.run=1` by setting it. -/
theorem arms (h : procStep w s a = some s') (hbefore : s.main.armed = false)
    (hafter : s'.main.armed = true) : s'.run = true := by
  obtain ⟨halive, ⟨-, hmain⟩ | ⟨-, hsup⟩ | ⟨sig, rfl, rfl⟩⟩ := procStep_cases h
  · exact (mainStep_run hmain).2 hbefore hafter
  · rw [(supStep_run hsup).2, hbefore] at hafter
    cases hafter
  · have hmain : (s.signal sig).main = s.main := by
      rcases signal_cases s sig with ⟨e, hs, -⟩ | ⟨-, hs⟩ | hs <;> rw [hs]
    rw [hmain, hbefore] at hafter
    cases hafter

end Order

/-! ## Exit with status 0

`main` returns 0 behind `pthread_join`, hence behind the end of the supervisor, which leaves its
loop when it finds `global.run` at 0. The run is then followed backwards to the signal that cleared
it. -/

section Exit

variable {w : World} {s s' : Proc} {as : List ProcAction}

theorem exec_inv (hrun : Run.exec (procStep w) s as = some s') (hi : ProcInv s) : ProcInv s' :=
  Run.invariant ProcInv (fun _ _ _ hi h => hi.step h) hrun hi

/-- Between a state in which `global.run` is 1 and a later one in which it is 0 there is a
`SIGTERM` that finds it 1. -/
theorem exists_sigterm (hrun : Run.exec (procStep w) s as = some s') (hup : s.run = true)
    (hdown : s'.run = false) : ∃ before after m, as = before ++ .signal sigTerm :: after ∧
      Run.exec (procStep w) s before = some m ∧ m.run = true := by
  induction as generalizing s with
  | nil =>
    cases hrun
    exact absurd (hup.symm.trans hdown) (by simp)
  | cons a as ih =>
    obtain ⟨m, hm, hrest⟩ := Run.exec_cons.mp hrun
    cases hmrun : m.run with
    | false =>
      obtain rfl := run_falls hm hup hmrun
      exact ⟨[], as, s, rfl, rfl, hup⟩
    | true =>
      obtain ⟨before, after, m', rfl, hbefore, hm'⟩ := ih hrest hmrun
      exact ⟨a :: before, after, m', rfl, Run.exec_cons.mpr ⟨m, hm, hbefore⟩, hm'⟩

/-- A run that gets past `global.run=1` has a state in which it is 1. -/
theorem exists_armed (hrun : Run.exec (procStep w) s as = some s')
    (hbefore : s.main.armed = false) (hafter : s'.main.armed = true) :
    ∃ before after m, as = before ++ after ∧ Run.exec (procStep w) s before = some m ∧
      m.run = true ∧ Run.exec (procStep w) m after = some s' := by
  induction as generalizing s with
  | nil =>
    cases hrun
    exact absurd (hbefore.symm.trans hafter) (by simp)
  | cons a as ih =>
    obtain ⟨m, hm, hrest⟩ := Run.exec_cons.mp hrun
    cases harmed : m.main.armed with
    | true =>
      exact ⟨[a], as, m, rfl, Run.exec_cons.mpr ⟨m, hm, rfl⟩, arms hm hbefore harmed, hrest⟩
    | false =>
      obtain ⟨before, after, m', rfl, hb, hm', hr⟩ := ih hrest harmed
      exact ⟨a :: before, after, m', rfl, Run.exec_cons.mpr ⟨m, hm, hb⟩, hm', hr⟩

/-- **Orderly end.** However the two threads and the signals interleave, the process exits with
status 0 only after a `SIGTERM` that came behind `global.run=1` (an earlier one is lost), and by
then the supervisor has ended, so that no thread is being started, and the configuration is
closed. -/
theorem exit_after_sigterm (hrun : Run.exec (procStep w) freshProc as = some s)
    (hexit : s.ending = some (.exit 0)) :
    (∃ before after m, as = before ++ .signal sigTerm :: after ∧
      Run.exec (procStep w) freshProc before = some m ∧ m.run = true) ∧
      s.sup = .ended ∧ s.run = false ∧ s.configOpen = false := by
  have hi := exec_inv hrun freshProc_inv
  have hdone := hi.returned hexit
  have hsup : s.sup = .ended := hi.joined (by rw [hdone]; rfl)
  refine ⟨?_, hsup, hi.down hsup, hi.reading.trans (by rw [hdone]; rfl)⟩
  obtain ⟨before, after, m, rfl, hbefore, hup, hafter⟩ :=
    exists_armed hrun rfl (by rw [hdone]; rfl)
  obtain ⟨front, behind, m', rfl, hfront, hm'⟩ := exists_sigterm hafter hup (hi.down hsup)
  refine ⟨before ++ front, behind, m', by rw [List.append_assoc], ?_, hm'⟩
  rw [Run.exec_append, hbefore, Option.bind_some, hfront]

end Exit

theorem twoThreads_noSup : Job.sup ∉ [Job.lbr, .io] := by decide

/-- A set-up of one worker and one thread for IO in which no call fails. -/
def oneTunnel : World := ⟨true, true, [.lbr, .io], twoThreads_noSup, true, true⟩

/-- A `SIGTERM` before `global.run=1`, then the set-up up to the first round of the supervisor. -/
def started : List ProcAction :=
  List.replicate 33 .main ++ .signal sigTerm :: List.replicate 7 .main ++ List.replicate 12 .sup

/-- The end of the round, another signal, and what is left of `main`. -/
def finished : List ProcAction :=
  List.replicate 3 .sup ++ .signal sigChld :: List.replicate 4 .main

def finishedProc : Proc where
  main := .done
  sup := .ended
  run := false
  gts := ⟨3, 1, 1, 1⟩
  mtl := [(0, .sup), (2, .io), (1, .lbr)]
  configOpen := false
  showStats := false
  ending := some (.exit 0)

theorem exec_finished : Run.exec (procStep oneTunnel) freshProc
    (started ++ .signal sigTerm :: finished) = some finishedProc := by decide +kernel

theorem exit_after_sigterm_finished :
    finishedProc.ending = some (.exit 0) ∧
      (∃ before after m, started ++ .signal sigTerm :: finished =
          before ++ .signal sigTerm :: after ∧
        Run.exec (procStep oneTunnel) freshProc before = some m ∧ m.run = true) ∧
      finishedProc.sup = .ended ∧ finishedProc.run = false ∧ finishedProc.configOpen = false :=
  ⟨rfl, exit_after_sigterm exec_finished rfl⟩

end Lanes
