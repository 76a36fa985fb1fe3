import Lanes.Process.Registered

/-!
# The end of the process

What follows a `SIGTERM`. Once `global.run` is 0 neither thread has a loop left to stay in, and each
of their steps is one of finitely many. `main` waits in `pthread_join` only, and then the supervisor
can go on.

* `Proc.left` is the number of steps that the two threads have left; every step of theirs takes one
  away (`Terminating.main`, `Terminating.sup`) and no signal adds one.
* `Terminating.progress` is the absence of deadlock.
* `ends_after_sigterm` puts both together, from any state that a run reaches behind `global.run=1`.
-/

namespace Lanes

/-! ## The rank

`MainAt.left` and `SupAt.left` count the statements that are still in front of a thread, with the
loops left at their next test. The supervisor has four for each thread that it still starts. -/

/-- A step of one of the two threads. -/
def ProcAction.own : ProcAction → Bool
  | .main | .sup => true
  | .signal _ => false

/-- The signals that neither a handler nor a default makes end the process. `STOP` is one of them:
it delays the steps, and it is a later `CONT` that ends the process. -/
def tame : List Nat := [sigTerm, sigChld, sigStop, sigTtou, sigProf]

/-- How many steps the two threads have left. -/
def Proc.left (w : World) (s : Proc) : Nat :=
  if s.ending.isSome then 0 else s.main.left + s.sup.left w.jobs.length

/-- `SIGTERM` came behind `global.run=1`. -/
structure Terminating (s : Proc) : Prop extends ProcInv s where
  armed : s.main.armed = true
  stopped : s.run = false

/-! ## Own steps

By the statement that is run. In each case `global.run` stays 0 and `main` stays behind
`global.run=1`; the process ends with status 1 only where a call of the set-up fails. -/

section Termination

variable {w : World} {s s' : Proc} {a : ProcAction}

/-- One step less. -/
theorem left_lt (halive : s.ending = none) (halive' : s'.ending = none)
    (h : s'.main.left + s'.sup.left w.jobs.length + 1 ≤ s.main.left + s.sup.left w.jobs.length) :
    s'.left w + 1 ≤ s.left w := by
  rw [Proc.left, Proc.left, halive, halive']
  exact h

/-- The supervisor as `main` finds it when it creates it. -/
theorem Terminating.unborn_left (ht : Terminating s) (hs : s.main.started = false) :
    s.sup.left w.jobs.length = (SupAt.takeId w.jobs).left w.jobs.length := by
  rw [ht.unborn.mpr hs]
  rfl

/-- Every statement of `main` behind `global.run=1` is one of those that were left. -/
theorem Terminating.main (ht : Terminating s) (halive : s.ending = none)
    (h : mainStep w s = some s') : s'.main.armed = true ∧ s'.run = false ∧
      s'.left w + 1 ≤ s.left w ∧ (s'.ending = none ∨ s'.ending = some (.exit 0)) := by
  have harmed := ht.armed
  cases hm : s.main <;> rw [mainStep, hm] at h <;> rw [hm] at harmed
  case install | parseArgs | loadConfig | setRun => cases harmed
  case setRunning | initThreadList | takeId | count id | register id | unloadConfig =>
    obtain rfl := Option.some.inj h
    refine ⟨rfl, ht.stopped, left_lt halive halive ?_, Or.inl halive⟩
    rw [hm]
    simp only [MainAt.left]
    omega
  case create id =>
    obtain rfl := Option.some.inj h
    refine ⟨rfl, ht.stopped, left_lt halive halive ?_, Or.inl halive⟩
    rw [ht.unborn_left (by rw [hm]; rfl), hm]
    simp only [MainAt.left]
    omega
  case join id =>
    dsimp only at h
    split at h
    · obtain rfl := Option.some.inj h
      refine ⟨rfl, ht.stopped, left_lt halive halive ?_, Or.inl halive⟩
      rw [hm]
      simp only [MainAt.left]
      omega
    · cases h
  case done =>
    obtain rfl := Option.some.inj h
    refine ⟨rfl, ht.stopped, ?_, Or.inr rfl⟩
    rw [Proc.left, Proc.left, halive, hm]
    simp only [Option.isSome_some, Option.isSome_none, Bool.false_eq_true, if_true, if_false,
      MainAt.left]
    omega

/-- The same of `supervisor`, which leaves its loop at the next test. -/
theorem Terminating.sup (ht : Terminating s) (halive : s.ending = none)
    (h : supStep w s = some s') : s'.main = s.main ∧ s'.run = false ∧
      s'.left w + 1 ≤ s.left w ∧ (w.networked = true → w.dropped = true → s'.ending = none) := by
  have hdie : 1 ≤ s.sup.left w.jobs.length → ∀ t : Proc, t.ending.isSome = true →
      t.left w + 1 ≤ s.left w := fun hle t hended => by
    rw [Proc.left, Proc.left, if_pos hended, halive]
    show 0 + 1 ≤ s.main.left + s.sup.left w.jobs.length
    omega
  cases hs : s.sup <;> rw [supStep, hs] at h <;> rw [hs] at hdie
  case unborn => cases h
  case ended => cases h
  case takeId todo =>
    cases todo with
    | nil =>
      obtain rfl := Option.some.inj h
      unfold Proc.orDie
      split
      · refine ⟨rfl, ht.stopped, left_lt halive halive ?_, fun _ _ => halive⟩
        rw [hs]
        simp only [SupAt.left, List.length_nil]
        omega
      · rename_i hnet
        exact ⟨rfl, ht.stopped, hdie (by simp [SupAt.left]) _ rfl, fun hnet' => absurd hnet' hnet⟩
    | cons job todo =>
      obtain rfl := Option.some.inj h
      refine ⟨rfl, ht.stopped, left_lt halive halive ?_, fun _ _ => halive⟩
      rw [hs]
      simp only [SupAt.left, List.length_cons]
      omega
  case dropPrivs =>
    obtain rfl := Option.some.inj h
    unfold Proc.orDie
    split
    · refine ⟨rfl, ht.stopped, left_lt halive halive ?_, fun _ _ => halive⟩
      rw [hs]
      simp only [SupAt.left]
      omega
    · rename_i hdrop
      exact ⟨rfl, ht.stopped, hdie (by simp [SupAt.left]) _ rfl,
        fun _ hdrop' => absurd hdrop' hdrop⟩
  case create | count | register | print | showOn | showOff =>
    obtain rfl := Option.some.inj h
    refine ⟨rfl, ht.stopped, left_lt halive halive ?_, fun _ _ => halive⟩
    rw [hs]
    simp only [SupAt.left]
    omega
  case test =>
    obtain rfl := Option.some.inj h
    refine ⟨rfl, ht.stopped, left_lt halive halive ?_, fun _ _ => halive⟩
    rw [hs]
    simp only [ht.stopped, Bool.false_eq_true, if_false, SupAt.left]
    omega

theorem Terminating.step (ht : Terminating s) (h : procStep w s a = some s') :
    Terminating s' ∧ s'.left w + (if a.own = true then 1 else 0) ≤ s.left w := by
  have hi := ht.toProcInv.step h
  obtain ⟨halive, ⟨rfl, hmain⟩ | ⟨rfl, hsup⟩ | ⟨sig, rfl, rfl⟩⟩ := procStep_cases h
  · obtain ⟨harmed, hstopped, hleft, -⟩ := ht.main halive hmain
    exact ⟨⟨hi, harmed, hstopped⟩, hleft⟩
  · obtain ⟨hsame, hstopped, hleft, -⟩ := ht.sup halive hsup
    exact ⟨⟨hi, by rw [hsame]; exact ht.armed, hstopped⟩, hleft⟩
  · rcases signal_cases s sig with ⟨e, hs, -⟩ | ⟨-, hs⟩ | hs
    · rw [hs] at hi ⊢
      exact ⟨⟨hi, ht.armed, ht.stopped⟩, by simp [Proc.left, ProcAction.own]⟩
    · rw [hs] at hi ⊢
      exact ⟨⟨hi, ht.armed, rfl⟩, Nat.le_refl _⟩
    · rw [hs]
      exact ⟨ht, Nat.le_refl _⟩

/-! ## Progress

`main` waits for the supervisor and for nobody else, and the supervisor for nobody. -/

/-- One of the two threads can go on until the process has ended. -/
theorem Terminating.progress (ht : Terminating s) (halive : s.ending = none) :
    ∃ a, a.own = true ∧ (procStep w s a).isSome = true := by
  have hunborn := ht.unborn
  by_cases hsup : (supStep w s).isSome = true
  · exact ⟨.sup, rfl, by simpa [procStep, halive] using hsup⟩
  · refine ⟨.main, rfl, ?_⟩
    -- the supervisor is not born yet or has ended, so `main` does not wait for it
    have hidle : s.sup = .unborn ∨ s.sup = .ended := by
      cases hs : s.sup <;> rw [supStep, hs] at hsup
      case unborn => exact Or.inl rfl
      case ended => exact Or.inr rfl
      case takeId todo => cases todo <;> exact absurd rfl hsup
      all_goals exact absurd rfl hsup
    have hmain : (mainStep w s).isSome = true := by
      cases hm : s.main <;> rw [mainStep, hm]
      case join id =>
        have hended : s.sup = .ended := hidle.resolve_left fun hs => by
          have := hunborn.mp hs
          rw [hm] at this
          cases this
        dsimp only
        rw [if_pos hended]
        rfl
      all_goals rfl
    simpa [procStep, halive] using hmain

/-! ## Signals behind `global.run=1`

All handlers are installed there, so a signal ends the process only if its handler does. -/

theorem installed_of_armed (harmed : s.main.armed = true) : s.main.installed = 32 := by
  cases hm : s.main <;> rw [hm] at harmed <;> first | rfl | cases harmed

/-- A tame signal does not end a process that has its handlers. -/
theorem signal_tame (harmed : s.main.armed = true) {sig : Nat} (htame : sig ∈ tame) :
    (s.signal sig).ending = s.ending := by
  unfold Proc.signal signalHandler
  rw [installed_of_armed harmed]
  simp only [tame, List.mem_cons, List.not_mem_nil, or_false] at htame
  rcases htame with rfl | rfl | rfl | rfl | rfl <;> rfl

theorem signal_sigTerm (harmed : s.main.armed = true) :
    s.signal sigTerm = { s with run := false } := by
  unfold Proc.signal signalHandler
  rw [installed_of_armed harmed]
  rfl

/-- A step that no call and no signal makes fail ends the process with status 0 or not at all. -/
theorem Terminating.ending (ht : Terminating s) (hnet : w.networked = true)
    (hdrop : w.dropped = true) (htame : ∀ sig, a = .signal sig → sig ∈ tame)
    (h : procStep w s a = some s') : s'.ending = none ∨ s'.ending = some (.exit 0) := by
  obtain ⟨halive, ⟨-, hmain⟩ | ⟨-, hsup⟩ | ⟨sig, rfl, rfl⟩⟩ := procStep_cases h
  · exact (ht.main halive hmain).2.2.2
  · exact Or.inl ((ht.sup halive hsup).2.2.2 hnet hdrop)
  · exact Or.inl ((signal_tame ht.armed (htame sig rfl)).trans halive)

theorem Registered.left_le {done : List Job} (hr : Registered w done s) :
    s.left w ≤ 4 * w.jobs.length + 13 := by
  have hjobs := congrArg List.length hr.jobs
  have hmain : s.main.left ≤ 9 := by
    cases s.main <;> simp [MainAt.left]
  have hsup : s.sup.left w.jobs.length ≤ 4 * w.jobs.length + 4 := by
    cases hs : s.sup <;> rw [hs] at hjobs <;>
      simp only [SupAt.pending, SupAt.todo, List.length_append, List.length_cons,
        List.length_nil] at hjobs <;>
      simp only [SupAt.left] <;> omega
  unfold Proc.left
  split <;> omega

end Termination

/-- **Termination.** After a `SIGTERM` that comes behind `global.run=1` the two threads take at most
`4 n + 13` further steps, `n` the number of threads to start, and one of them can go on until the
process has ended; it exits with status 0 unless a call dies or a signal of another kind comes. -/
theorem ends_after_sigterm {w : World} {before after : List ProcAction} {m s : Proc}
    (hbefore : Run.exec (procStep w) freshProc before = some m) (harmed : m.main.armed = true)
    (hrun : Run.exec (procStep w) m (.signal sigTerm :: after) = some s) :
    after.countP ProcAction.own ≤ 4 * w.jobs.length + 13 ∧
      (s.ending = none → ∃ a, a.own = true ∧ (procStep w s a).isSome = true) ∧
      (w.networked = true → w.dropped = true →
        (∀ sig, ProcAction.signal sig ∈ after → sig ∈ tame) →
          s.ending = none ∨ s.ending = some (.exit 0)) := by
  obtain ⟨hi, done, hr⟩ := exec_registered hbefore
  obtain ⟨t, hstep, hafter⟩ := Run.exec_cons.mp hrun
  have hsame : t = { m with run := false } := by
    obtain ⟨-, ⟨ha, -⟩ | ⟨ha, -⟩ | ⟨sig, ha, rfl⟩⟩ := procStep_cases hstep
    · cases ha
    · cases ha
    · cases ha
      exact signal_sigTerm harmed
  have halive : t.ending = none := by
    rw [hsame]
    exact (procStep_cases hstep).1
  have ht : Terminating t := ⟨hi.step hstep, by rw [hsame]; exact harmed, by rw [hsame]⟩
  have hs : Terminating s := Run.invariant Terminating (fun _ _ _ h h' => (h.step h').1) hafter ht
  refine ⟨?_, hs.progress, fun hnet hdrop htame => ?_⟩
  · have hbound := Run.countP_le_of_rank Terminating (fun _ => True) (Proc.left w) ProcAction.own
      (fun _ _ _ h _ h' => (h.step h').1) (fun _ _ _ h _ _ h' => (h.step h').2)
      (Run.within_of_mem (fun _ _ _ => ⟨trivial, trivial⟩) t) hafter ht
    have hleft : t.left w ≤ 4 * w.jobs.length + 13 := by
      have hr' : Registered w done t := by
        rw [hsame]
        exact { hr with }
      exact hr'.left_le
    omega
  · have hok : Run.Within (procStep w) (fun _ a => ∀ sig, a = .signal sig → sig ∈ tame) t
        after := by
      refine Run.within_of_mem (fun a ha _ sig hsig => ?_) t
      subst hsig
      exact htame sig ha
    exact (Run.invariant_of_within
      (fun s => Terminating s ∧ (s.ending = none ∨ s.ending = some (.exit 0)))
      (fun s a s' hi ok h => ⟨(hi.1.step h).1, hi.1.ending hnet hdrop ok h⟩) hok hafter
      ⟨ht, Or.inl halive⟩).2

/-- The state at the second `SIGTERM`. -/
def startedProc : Proc where
  main := .join 0
  sup := .showOn
  run := true
  gts := ⟨3, 1, 1, 1⟩
  mtl := [(2, .io), (1, .lbr)]
  configOpen := true
  showStats := false
  ending := none

theorem exec_started : Run.exec (procStep oneTunnel) freshProc started = some startedProc := by
  decide +kernel

theorem exec_sigterm : Run.exec (procStep oneTunnel) startedProc (.signal sigTerm :: finished) =
    some finishedProc := by decide +kernel

theorem ends_after_sigterm_finished :
    finished.countP ProcAction.own ≤ 4 * oneTunnel.jobs.length + 13 ∧
      (finishedProc.ending = none →
        ∃ a, a.own = true ∧ (procStep oneTunnel finishedProc a).isSome = true) ∧
      (finishedProc.ending = none ∨ finishedProc.ending = some (.exit 0)) := by
  obtain ⟨hbound, hprogress, hexit⟩ := ends_after_sigterm exec_started rfl exec_sigterm
  refine ⟨hbound, hprogress, hexit rfl rfl fun sig hsig => ?_⟩
  have hchld : sig = sigChld := by simpa [finished] using hsig
  rw [hchld]
  decide

end Lanes
