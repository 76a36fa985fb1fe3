import Mathlib.Data.List.Nodup
import Lanes.Process.Life

/-!
# The threads that are started

`new_thread` takes a number, creates the thread, counts it under its job and enters it in the master
thread list, in this order; for the supervisor `pthread_join` comes between the last two. `main` and
the supervisor both run it, but not at the same time: until the supervisor has ended, `main` is past
the number and in front of the entry.

* `Registered` says what the list and the counters hold at every point of the set-up: those threads
  `done` whose start is over, the one that is being started as far as it has come, and the
  supervisor's own part.
* `threads_registered` draws from it what a reader of the list can rely on.
-/

namespace Lanes

/-! ## Parts of a start

What a thread has done of `new_thread` at each of its statements. The supervisor starts the threads
of the set-up; `main` starts one, the supervisor. -/

namespace MainAt

/-- The supervisor's number has been taken, it has been counted, and its entry. -/
def taken : MainAt → Nat
  | .create _ | .count _ | .join _ | .register _ | .unloadConfig | .done => 1
  | _ => 0

def counted : MainAt → Nat
  | .join _ | .register _ | .unloadConfig | .done => 1
  | _ => 0

def listed : MainAt → List (Nat × Job)
  | .unloadConfig | .done => [(0, .sup)]
  | _ => []

def id? : MainAt → Option Nat
  | .create id | .count id | .join id | .register id => some id
  | _ => none

end MainAt

namespace SupAt

/-- The thread that is being started. -/
def pending : SupAt → List Job
  | .create _ job _ | .count _ job _ | .register _ job _ => [job]
  | _ => []

/-- The same once it has been counted. -/
def counted : SupAt → List Job
  | .register _ job _ => [job]
  | _ => []

/-- The threads that have still to be started. -/
def todo (jobs : List Job) : SupAt → List Job
  | .unborn => jobs
  | .takeId todo | .create _ _ todo | .count _ _ todo | .register _ _ todo => todo
  | _ => []

def id? : SupAt → Option Nat
  | .create id _ _ | .count id _ _ | .register id _ _ => some id
  | _ => none

/-- All threads of the set-up have been started. -/
def ready : SupAt → Bool
  | .dropPrivs | .print | .test | .showOn | .showOff | .ended => true
  | _ => false

end SupAt

/-- The entries of the threads of the set-up, numbered from 1, the newest first. -/
def entries (jobs : List Job) : List (Nat × Job) := ((List.range' 1 jobs.length).zip jobs).reverse

/-- The counters when the numbers of `taken` have been taken and `counted` have been counted. -/
def gtsOf (m : MainAt) (taken counted : List Job) : Gts where
  gtc := m.taken + taken.length
  supc := m.counted + counted.count .sup
  ioc := counted.count .io
  lbrc := counted.count .lbr

/-- The threads `done` are in the list, and the counters fit. -/
structure Registered (w : World) (done : List Job) (s : Proc) : Prop where
  jobs : w.jobs = done ++ (s.sup.pending ++ s.sup.todo w.jobs)
  gts : s.gts = gtsOf s.main (done ++ s.sup.pending) (done ++ s.sup.counted)
  mtl : s.mtl = s.main.listed ++ entries done
  mainId : ∀ id, s.main.id? = some id → id = 0
  supId : ∀ id, s.sup.id? = some id → id = done.length + 1

/-! ## The steps of either thread

A statement of `new_thread` moves one thing at a time: the number, the count or the entry. So each
case changes one of the fields of `Registered`, and `Registered.same` is for the statements that
change none. -/

section Threads

variable {w : World} {s s' : Proc} {a : ProcAction} {done : List Job} {as : List ProcAction}
  {m : MainAt} {taken counted : List Job}

theorem entries_concat (jobs : List Job) (job : Job) :
    entries (jobs ++ [job]) = (jobs.length + 1, job) :: entries jobs := by
  unfold entries
  rw [List.length_append, List.length_singleton, List.range'_1_concat,
    List.zip_append (by simp), Nat.add_comm 1]
  simp

theorem gtsOf_count (m : MainAt) (taken counted : List Job) (job : Job) :
    (gtsOf m taken counted).count job = gtsOf m taken (counted ++ [job]) := by
  cases job <;> simp [Gts.count, gtsOf, Nat.add_assoc]

theorem gtsOf_taken (m : MainAt) (taken counted : List Job) (job : Job) :
    (gtsOf m taken counted).taken = gtsOf m (taken ++ [job]) counted := by
  simp [Gts.taken, gtsOf, Nat.add_assoc]

theorem freshProc_registered (w : World) : Registered w [] freshProc where
  jobs := rfl
  gts := rfl
  mtl := rfl
  mainId _ h := by cases h
  supId _ h := by cases h

/-- Before the supervisor is born no thread of the set-up has been started. -/
theorem Registered.nil_of_unborn (hr : Registered w done s) (hs : s.sup = .unborn) : done = [] := by
  have hjobs := congrArg List.length hr.jobs
  rw [hs] at hjobs
  simp only [SupAt.pending, SupAt.todo, List.nil_append, List.length_append] at hjobs
  exact List.eq_nil_of_length_eq_zero (by omega)

/-- A statement that starts no thread leaves the list and the counters alone. -/
theorem Registered.same (hr : Registered w done s) (hsup : s'.sup = s.sup) (hgts : s'.gts = s.gts)
    (hmtl : s'.mtl = s.mtl) (htaken : s'.main.taken = s.main.taken)
    (hcounted : s'.main.counted = s.main.counted) (hlisted : s'.main.listed = s.main.listed)
    (hid : s'.main.id? = none ∨ s'.main.id? = s.main.id?) : Registered w done s' where
  jobs := by rw [hsup]; exact hr.jobs
  gts := by
    rw [hgts, hsup, gtsOf, htaken, hcounted]
    exact hr.gts
  mtl := by rw [hmtl, hlisted]; exact hr.mtl
  mainId id h := by
    rcases hid with hnone | hsame
    · rw [hnone] at h
      cases h
    · exact hr.mainId id (hsame ▸ h)
  supId id h := hr.supId id (hsup ▸ h)

/-- A call that ends the process leaves everything as it was. -/
theorem Registered.orDie {next : Proc} (hr : Registered w done s) (hn : Registered w done next)
    (returns : Bool) : Registered w done (s.orDie returns next) := by
  unfold Proc.orDie
  split
  · exact hn
  · exact { hr with }

/-- A step of `main`. Up to `create` the supervisor is not born, so that `done` is empty; behind it
`main` counts the supervisor, waits for its end and enters it in the list. -/
theorem Registered.main (hr : Registered w done s) (hi : ProcInv s)
    (h : mainStep w s = some s') : Registered w done s' := by
  have hunborn := hi.unborn
  have hnil := hr.nil_of_unborn
  have hgts := hr.gts
  have hmtl := hr.mtl
  unfold mainStep at h
  cases hm : s.main with
  | install i =>
    rw [hm] at h
    cases h
    split <;> exact hr.same rfl rfl rfl (by rw [hm]; rfl) (by rw [hm]; rfl) (by rw [hm]; rfl)
      (Or.inl rfl)
  | parseArgs | loadConfig =>
    rw [hm] at h
    obtain rfl := Option.some.inj h
    refine hr.orDie ?_ _
    exact hr.same rfl rfl rfl (by rw [hm]; rfl) (by rw [hm]; rfl) (by rw [hm]; rfl) (Or.inl rfl)
  | setRun | setRunning | unloadConfig =>
    rw [hm] at h
    cases h
    exact hr.same rfl rfl rfl (by rw [hm]; rfl) (by rw [hm]; rfl) (by rw [hm]; rfl) (Or.inl rfl)
  | done =>
    rw [hm] at h
    cases h
    exact hr.same rfl rfl rfl (by rw [hm]) (by rw [hm]) (by rw [hm]) (Or.inl rfl)
  | initThreadList =>
    rw [hm] at h hgts
    cases h
    obtain rfl := hnil (hunborn.mpr (by rw [hm]; rfl))
    exact { hr with gts := hgts, mtl := rfl, mainId := fun _ hid => by cases hid }
  | takeId =>
    rw [hm] at h hgts hmtl
    cases h
    -- the supervisor is not born yet, so no number has been taken
    have hs := hunborn.mpr (by rw [hm]; rfl)
    obtain rfl := hnil hs
    rw [hs] at hgts
    refine { hr with gts := ?_, mtl := hmtl, mainId := fun id hid => ?_ }
    · rw [hs, hgts]
      rfl
    · rw [← Option.some.inj hid, hgts]
      rfl
  | create id =>
    rw [hm] at h hgts hmtl
    cases h
    have hs := hunborn.mpr (by rw [hm]; rfl)
    obtain rfl := hnil hs
    rw [hs] at hgts
    exact
      { jobs := rfl
        gts := hgts
        mtl := hmtl
        mainId := fun id hid => hr.mainId id (by rw [hm]; exact hid)
        supId := fun _ hid => by cases hid }
  | count id =>
    rw [hm] at h hgts hmtl
    cases h
    refine { hr with gts := ?_, mtl := hmtl, mainId := fun id hid => ?_ }
    · rw [hgts]
      simp [Gts.count, gtsOf, MainAt.taken, MainAt.counted, Nat.add_comm]
    · exact hr.mainId id (by rw [hm]; exact hid)
  | join id =>
    rw [hm] at h
    dsimp only at h
    split at h <;> cases h
    exact hr.same rfl rfl rfl (by rw [hm]; rfl) (by rw [hm]; rfl) (by rw [hm]; rfl)
      (by simp [hm, MainAt.id?])
  | register id =>
    rw [hm] at h hgts hmtl
    cases h
    obtain rfl := hr.mainId id (by rw [hm]; rfl)
    exact { hr with gts := hgts, mtl := by rw [hmtl]; rfl, mainId := fun _ hid => by cases hid }

theorem taken_of_started (hm : m.started = true) : m.taken = 1 := by
  cases m <;> first | rfl | cases hm

theorem taken_le_one (m : MainAt) : m.taken ≤ 1 := by
  cases m <;> simp [MainAt.taken]

theorem counted_le_taken (m : MainAt) : m.counted ≤ m.taken := by
  cases m <;> simp [MainAt.counted, MainAt.taken]

theorem listed_cases (m : MainAt) :
    m.listed = [] ∨ m.listed = [(0, .sup)] ∧ m.joined = true := by
  cases m <;> first | exact Or.inl rfl | exact Or.inr ⟨rfl, rfl⟩

theorem listed_of_not_joined (hm : m.joined = false) : m.listed = [] := by
  cases m <;> first | rfl | cases hm

/-- A step of `supervisor` leaves the threads as they are, or is the last one of a `new_thread`. -/
theorem Registered.sup (hr : Registered w done s) (hi : ProcInv s) (h : supStep w s = some s') :
    ∃ done', Registered w done' s' := by
  have hjobs := hr.jobs
  have hgts := hr.gts
  have hmtl := hr.mtl
  have hid := hr.supId
  unfold supStep at h
  cases hs : s.sup with
  | unborn | ended =>
    rw [hs] at h
    cases h
  | takeId todo =>
    rw [hs] at h hjobs hgts
    cases todo with
    | nil =>
      obtain rfl := Option.some.inj h
      refine ⟨done, hr.orDie ?_ _⟩
      exact { hr with jobs := hjobs, gts := hgts, supId := fun _ hid => by cases hid }
    | cons job todo =>
      cases h
      refine ⟨done, { hr with jobs := hjobs, gts := ?_, supId := fun id hid => ?_ }⟩
      · rw [hgts, gtsOf_taken _ _ _ job]
        simp [SupAt.pending, SupAt.counted]
      · have htaken : s.main.taken = 1 := taken_of_started (by
          rw [← Bool.not_eq_false, ← hi.unborn, hs]
          simp)
        rw [← Option.some.inj hid, hgts, gtsOf, htaken]
        simp [SupAt.pending, Nat.add_comm]
  | create id job todo =>
    rw [hs] at h hjobs hgts hid
    cases h
    exact ⟨done, { hr with jobs := hjobs, gts := hgts, supId := hid }⟩
  | count id job todo =>
    rw [hs] at h hjobs hgts hid
    cases h
    refine ⟨done, { hr with jobs := hjobs, gts := ?_, supId := hid }⟩
    rw [hgts, gtsOf_count]
    simp [SupAt.pending, SupAt.counted]
  | register id job todo =>
    rw [hs] at h hjobs hgts hid
    cases h
    obtain rfl := hid id rfl
    have hlisted : s.main.listed = [] := listed_of_not_joined (by
      cases hj : s.main.joined with
      | false => rfl
      | true =>
        rw [hi.joined hj] at hs
        cases hs)
    exact ⟨done ++ [job],
      { hr with
        jobs := by rw [hjobs]; simp [SupAt.pending, SupAt.todo]
        gts := by rw [hgts]; simp [SupAt.pending, SupAt.counted]
        mtl := by rw [entries_concat, hmtl, hlisted]; rfl
        supId := fun _ hid => by cases hid }⟩
  | dropPrivs =>
    rw [hs] at h hjobs hgts
    obtain rfl := Option.some.inj h
    refine ⟨done, hr.orDie ?_ _⟩
    exact { hr with jobs := hjobs, gts := hgts, supId := fun _ hid => by cases hid }
  | print | showOn | showOff =>
    rw [hs] at h hjobs hgts
    cases h
    exact ⟨done, { hr with jobs := hjobs, gts := hgts, supId := fun _ hid => by cases hid }⟩
  | test =>
    rw [hs] at h hjobs hgts
    cases h
    refine ⟨done, ?_⟩
    split <;> exact { hr with jobs := hjobs, gts := hgts, supId := fun _ hid => by cases hid }

/-- A signal may end the process or clear `global.run`, and touches no list. -/
theorem Registered.signal (hr : Registered w done s) (sig : Nat) :
    Registered w done (s.signal sig) := by
  rcases signal_cases s sig with ⟨e, hs, -⟩ | ⟨-, hs⟩ | hs <;> rw [hs]
  · exact { hr with }
  · exact { hr with }
  · exact hr

/-- In every run, with the invariant of the process, which says where the supervisor can be. -/
theorem exec_registered (hrun : Run.exec (procStep w) freshProc as = some s) :
    ProcInv s ∧ ∃ done, Registered w done s := by
  refine Run.invariant (fun s => ProcInv s ∧ ∃ done, Registered w done s) ?_ hrun
    ⟨freshProc_inv, [], freshProc_registered w⟩
  rintro s a s' ⟨hi, done, hr⟩ h
  refine ⟨hi.step h, ?_⟩
  obtain ⟨-, ⟨-, hmain⟩ | ⟨-, hsup⟩ | ⟨sig, -, rfl⟩⟩ := procStep_cases h
  · exact ⟨done, hr.main hi hmain⟩
  · exact hr.sup hi hsup
  · exact ⟨done, hr.signal sig⟩

/-! ## What the list has

The numbers of the set-up are 1, 2, …, one for each of its threads, and 0 is that of the supervisor.
That settles what is in the list at every point, and from the last start on all of it. -/

theorem entries_ids (jobs : List Job) :
    (entries jobs).map Prod.fst = (List.range' 1 jobs.length).reverse := by
  rw [entries, List.map_reverse, List.map_fst_zip (by simp)]

theorem lt_of_mem_entries {jobs : List Job} {e : Nat × Job} (he : e ∈ entries jobs) :
    1 ≤ e.1 ∧ e.1 < jobs.length + 1 := by
  have hid : e.1 ∈ (entries jobs).map Prod.fst := List.mem_map_of_mem he
  rw [entries_ids, List.mem_reverse, List.mem_range'_1] at hid
  omega

theorem count_jobs (jobs : List Job) :
    jobs.count .sup + jobs.count .io + jobs.count .lbr = jobs.length := by
  induction jobs with
  | nil => rfl
  | cons job jobs ih =>
    cases job <;> simp <;> omega

theorem rest_of_ready {p : SupAt} (jobs : List Job) (h : p.ready = true) :
    p.pending = [] ∧ p.counted = [] ∧ p.todo jobs = [] ∧ p ≠ .unborn := by
  cases p <;> first | exact ⟨rfl, rfl, rfl, by simp⟩ | cases h

/-- Where the supervisor has no number yet, the list is empty. -/
theorem Registered.mtl_of_untaken (hr : Registered w done s) (hi : ProcInv s)
    (hm : s.main.taken = 0) : s.mtl = [] := by
  have hstarted : s.main.started = false := by
    by_contra h
    rw [taken_of_started (by simpa using h)] at hm
    cases hm
  have hdone := hr.nil_of_unborn (hi.unborn.mpr hstarted)
  have hlisted : s.main.listed = [] := by
    cases hmain : s.main <;> rw [hmain] at hm <;> first | rfl | cases hm
  rw [hr.mtl, hlisted, hdone]
  rfl

/-- The supervisor has the number 0, the threads of the set-up have those from 1 on. -/
theorem Registered.ids_nodup (hr : Registered w done s) : (s.mtl.map Prod.fst).Nodup := by
  rw [hr.mtl, List.map_append, entries_ids]
  rcases listed_cases s.main with hl | ⟨hl, -⟩
  · rw [hl]
    exact List.nodup_reverse.mpr List.nodup_range'
  · rw [hl]
    exact List.nodup_cons.mpr ⟨by simp, List.nodup_reverse.mpr List.nodup_range'⟩

/-- The counter is above every number in the list. -/
theorem Registered.ids_lt (hr : Registered w done s) (hi : ProcInv s) {e : Nat × Job}
    (he : e ∈ s.mtl) : e.1 < s.gts.gtc := by
  have htaken : s.main.taken = 1 := by
    have hle := taken_le_one s.main
    by_contra hne
    rw [hr.mtl_of_untaken hi (by omega)] at he
    cases he
  have hgtc : s.gts.gtc = 1 + (done ++ s.sup.pending).length := by rw [hr.gts, gtsOf, htaken]
  rw [hr.mtl, List.mem_append] at he
  rw [hgtc, List.length_append]
  rcases he with he | he
  · rcases listed_cases s.main with hl | ⟨hl, -⟩
    · rw [hl] at he
      cases he
    · rw [hl, List.mem_singleton] at he
      subst he
      omega
  · have hlt := (lt_of_mem_entries he).2
    omega

/-- A thread is counted after it has its number. -/
theorem Registered.counts_le (hr : Registered w done s) :
    s.gts.supc + s.gts.ioc + s.gts.lbrc ≤ s.gts.gtc := by
  have hmain := counted_le_taken s.main
  have hsup : s.sup.counted.length ≤ s.sup.pending.length := by
    cases s.sup <;> simp [SupAt.counted, SupAt.pending]
  have hcount := count_jobs (done ++ s.sup.counted)
  rw [List.length_append] at hcount
  rw [hr.gts]
  simp only [gtsOf, List.length_append]
  omega

/-- Once nothing is left to start, all the threads of the set-up are in the list. -/
theorem Registered.of_ready (hr : Registered w done s) (hi : ProcInv s)
    (hready : s.sup.ready = true) : s.gts.gtc = w.jobs.length + 1 ∧
      s.gts.ioc = w.jobs.count .io ∧ s.gts.lbrc = w.jobs.count .lbr ∧
      s.mtl = s.main.listed ++ entries w.jobs := by
  obtain ⟨hpending, hcounted, htodo, hborn⟩ := rest_of_ready w.jobs hready
  have hdone : w.jobs = done := by rw [hr.jobs, hpending, htodo, List.append_nil, List.append_nil]
  have htaken : s.main.taken = 1 := taken_of_started (by
    rw [← Bool.not_eq_false, ← hi.unborn]
    exact hborn)
  rw [hr.gts, hpending, hcounted, List.append_nil, ← hdone, hr.mtl, ← hdone]
  exact ⟨by rw [gtsOf, htaken, Nat.add_comm], rfl, rfl, rfl⟩

/-- The supervisor enters the list behind its end. -/
theorem Registered.ended_of_mem (hr : Registered w done s) (hi : ProcInv s)
    (hmem : (0, .sup) ∈ s.mtl) : s.sup = .ended := by
  rcases listed_cases s.main with hl | ⟨-, hjoined⟩
  · rw [hr.mtl, hl, List.nil_append] at hmem
    have hpos := (lt_of_mem_entries hmem).1
    omega
  · exact hi.joined hjoined

end Threads

/-- **Registration.** In every run the numbers in the list of the threads are different and below
the counter, and no more threads are counted than numbers were taken. From the end of the set-up on
each of its threads is in the list under its number and counted under its job; the supervisor itself
enters the list only after it has ended. -/
theorem threads_registered {w : World} {s : Proc} {as : List ProcAction}
    (hrun : Run.exec (procStep w) freshProc as = some s) :
    (s.mtl.map Prod.fst).Nodup ∧ (∀ e ∈ s.mtl, e.1 < s.gts.gtc) ∧
      s.gts.supc + s.gts.ioc + s.gts.lbrc ≤ s.gts.gtc ∧
      (s.sup.ready = true → s.gts.gtc = w.jobs.length + 1 ∧ s.gts.ioc = w.jobs.count .io ∧
        s.gts.lbrc = w.jobs.count .lbr ∧ s.mtl = s.main.listed ++ entries w.jobs) ∧
      ((0, .sup) ∈ s.mtl → s.sup = .ended) := by
  obtain ⟨hi, done, hr⟩ := exec_registered hrun
  exact ⟨hr.ids_nodup, fun _ => hr.ids_lt hi, hr.counts_le, hr.of_ready hi, hr.ended_of_mem hi⟩

theorem threads_registered_finished :
    (finishedProc.mtl.map Prod.fst).Nodup ∧
      (∀ e ∈ finishedProc.mtl, e.1 < finishedProc.gts.gtc) ∧
      finishedProc.gts.supc + finishedProc.gts.ioc + finishedProc.gts.lbrc ≤
        finishedProc.gts.gtc ∧
      (finishedProc.sup.ready = true → finishedProc.gts.gtc = oneTunnel.jobs.length + 1 ∧
        finishedProc.gts.ioc = oneTunnel.jobs.count .io ∧
        finishedProc.gts.lbrc = oneTunnel.jobs.count .lbr ∧
        finishedProc.mtl = finishedProc.main.listed ++ entries oneTunnel.jobs) ∧
      ((0, .sup) ∈ finishedProc.mtl → finishedProc.sup = .ended) :=
  threads_registered exec_finished

end Lanes
