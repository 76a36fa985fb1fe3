import Mathlib.Data.List.Perm.Subperm
import Lanes.Lib.Run
import Lanes.Network.Session
import Lanes.Ring.Pool
import Lanes.Workers.Shutdown

/-!
# Which worker takes which queue

The loop of `tx_session` and `rx_session` initialises a ring and starts a worker, once for each
queue. The worker it starts is not told the index: every worker takes the next value of `h->id`, so
that a worker started early may take a queue initialised late, or the other way round. A worker
gets an id only after it was started, hence after as many rings were initialised as there are
workers.

Two things have to go together for every worker to end up with a queue of its own: the
fetch-and-add gives each id once, and the ids given out never run ahead of the rings that are
initialised. `Assigned` is that invariant. **`oneWorkerEach_of_run`** reads the property off it in
every state of every run, whatever the order in which the loop and the workers take their turns and
whatever the value of `global.run` that a worker sees.
-/

namespace Lanes

/-! ## The loop and the workers it started

One pass of the loop is three steps: the ring is initialised, it gets its number, and a worker is
started. A worker takes the steps of `WorkerPc` on the memory of the session, so that it may run
through any number of packets before the next ring is there. -/

/-- Where the loop over `j` is. -/
inductive LoopPc where
  /-- Before `init_ring_buffer (&q[j], …)` returns. -/
  | init (j : Nat)
  /-- Before `q[j].id = j`. -/
  | label (j : Nat)
  /-- Before `new_thread`. -/
  | spawn (j : Nat)
  | done
  deriving Repr, DecidableEq

/-- The test `j < tmp->threads`. -/
def LoopPc.test (threads j : Nat) : LoopPc := if j < threads then .init j else .done

/-- A worker of the session. -/
structure Worker where
  pc : WorkerPc
  /-- What its fetch-and-add returned; no step reads it. -/
  got : Option Nat

structure SetUp where
  h : SessionMem
  loop : LoopPc
  /-- The workers started so far. -/
  workers : List Worker
  /-- The rings whose `init_ring_buffer` has returned; no step reads it. -/
  ready : List Nat

/-- Whose turn it is: the loop, where `allocated` says whether the allocations of a ring succeed, or
the `k`-th worker, where `run` is the value of `global.run == 1`. -/
inductive Turn where
  | loop (allocated : Bool)
  | worker (k : Nat) (run : Bool)

namespace SetUp

/-- `none` is a `die`, which ends the process. -/
def loopStep (threads mtu : Nat) (hdr : Headers) (allocated : Bool) (s : SetUp) : Option SetUp :=
  match s.loop with
  | .init j =>
    (initRingBuffer (s.h.q j) (bufSize / threads) mtu hdr allocated).map fun (q, pool) =>
      { s with
        h := { s.h.setQ j q with pool := Function.update s.h.pool j pool }
        loop := .label j
        ready := j :: s.ready }
  | .label j => some { s with h := s.h.setQ j { s.h.q j with id := j }, loop := .spawn j }
  | .spawn j =>
    some { s with
      workers := s.workers ++ [⟨.start, none⟩]
      loop := .test threads (j + 1) }
  | .done => none

def workerStep (k : Nat) (run : Bool) (s : SetUp) : Option SetUp := do
  let w ← s.workers[k]?
  let (h, pc) ← w.pc.step run s.h
  return { s with
    h := h
    workers := s.workers.set k ⟨pc, if w.pc = .start then some s.h.id else w.got⟩ }

def turn (threads mtu : Nat) (hdr : Headers) (s : SetUp) : Turn → Option SetUp
  | .loop allocated => s.loopStep threads mtu hdr allocated
  | .worker k run => s.workerStep k run

/-- The loop is about to start, on a session structure in which `h->id` is 0. -/
def start (threads : Nat) (h : SessionMem) : SetUp where
  h := { h with id := 0 }
  loop := .test threads 0
  workers := []
  ready := []

/-- The ids that the workers have got. -/
def ids (s : SetUp) : List Nat := s.workers.filterMap Worker.got

/-- The workers that have got queue `i`. -/
def onQueue (s : SetUp) (i : Nat) : Nat := s.workers.countP fun w => w.got == some i

end SetUp

/-- The queue a worker is working on. -/
def WorkerPc.queue : WorkerPc → Option Nat
  | .start | .exited => none
  | .setup i | .top i | .popEnter i | .popTest i | .popReset i | .popScan i | .popUnlock i
  | .popReturn i | .sending i _ | .marking i _ | .counting i _ | .unlocking i _ | .adapting i
  | .waiting i | .resuming i | .lockfail i => some i

/-- Every worker past its first step has an id, it is that of an initialised ring and the worker
stays on it, no two have the same one, and once all have one every queue has its worker. -/
structure OneWorkerEach (threads : Nat) (s : SetUp) : Prop where
  named : ∀ w ∈ s.workers, w.pc ≠ .start → ∃ i, w.got = some i
  ready : ∀ w ∈ s.workers, ∀ i, w.got = some i → i < threads ∧ i ∈ s.ready
  stays : ∀ w ∈ s.workers, ∀ i, w.pc.queue = some i → w.got = some i
  distinct : ∀ i, s.onQueue i ≤ 1
  all : s.workers.length = threads → (∀ w ∈ s.workers, w.got.isSome = true) →
    ∀ i < threads, s.onQueue i = 1

/-! ## The invariant

`h->id` counts the ids given out, and it is at most the number of workers started; at every point
of the loop the rings of that many workers are initialised. -/

/-- The workers that the loop has started when it is at this point. -/
def LoopPc.started (threads : Nat) : LoopPc → Nat
  | .init j | .label j | .spawn j => j
  | .done => threads

/-- The ring that is initialised and has no worker yet. -/
def LoopPc.prepared : LoopPc → Option Nat
  | .label j | .spawn j => some j
  | .init _ | .done => none

/-- The loop is at an index of the array. -/
def LoopPc.Inside (threads : Nat) : LoopPc → Prop
  | .init j | .label j | .spawn j => j < threads
  | .done => True

/-- Ids given out, workers started and rings initialised keep in step. -/
structure Assigned (threads : Nat) (s : SetUp) : Prop where
  inside : s.loop.Inside threads
  started : s.workers.length = s.loop.started threads
  ready : ∀ i < s.workers.length, i ∈ s.ready
  prepared : ∀ j, s.loop.prepared = some j → j ∈ s.ready
  given : s.h.id = s.ids.length
  below : ∀ i ∈ s.ids, i < s.h.id
  nodup : s.ids.Nodup
  /-- A worker gets its id with its first step. -/
  waiting : ∀ w ∈ s.workers, w.pc = .start ↔ w.got = none
  stays : ∀ w ∈ s.workers, ∀ i, w.pc.queue = some i → w.got = some i

section Assign

variable {threads mtu k : Nat} {hdr : Headers} {s s' : SetUp} {h h' : SessionMem} {run : Bool}
  {pc pc' : WorkerPc}

theorem LoopPc.Inside.started_le {pc : LoopPc} (h : pc.Inside threads) :
    pc.started threads ≤ threads := by
  cases pc with
  | done => exact Nat.le_refl threads
  | _ => exact Nat.le_of_lt h

theorem LoopPc.test_started (hj : k ≤ threads) : (LoopPc.test threads k).started threads = k := by
  unfold LoopPc.test
  split
  · rfl
  · show threads = k
    omega

theorem LoopPc.test_prepared : (LoopPc.test threads k).prepared = none := by
  unfold LoopPc.test
  split <;> rfl

theorem LoopPc.test_inside : (LoopPc.test threads k).Inside threads := by
  unfold LoopPc.test
  split
  · assumption
  · trivial

/-- What a worker's step is to the others: the first one takes the id, no later one touches it, and
none of them changes queues. -/
theorem WorkerPc.step_id (hstep : pc.step run h = some (h', pc')) :
    (pc = .start ∧ h'.id = inc32 h.id ∧ pc' = .setup h.id) ∨
      (pc ≠ .start ∧ h'.id = h.id ∧ pc' ≠ .start ∧
        ∀ i, pc'.queue = some i → pc.queue = some i) := by
  cases pc with
  | start =>
    cases hstep
    exact Or.inl ⟨rfl, rfl, rfl⟩
  | exited => cases hstep
  | top i =>
    cases hstep
    refine Or.inr ⟨WorkerPc.noConfusion, rfl, ?_, ?_⟩ <;> cases run <;> simp [queue]
  | waiting i =>
    cases hstep
    refine Or.inr ⟨WorkerPc.noConfusion, rfl, ?_, ?_⟩ <;> split <;> simp [queue]
  | _ =>
    simp only [step] at hstep
    repeat' split at hstep
    all_goals
      cases hstep
      refine Or.inr ⟨?_, rfl, ?_, fun _ hq => hq⟩
      · intro hpc
        cases hpc
      · intro hpc
        cases hpc

/-- A step of the `k`-th worker changes that worker and the session in memory. -/
theorem SetUp.workerStep_some (hstep : s.workerStep k run = some s') :
    ∃ before w after h' pc', s.workers = before ++ w :: after ∧ w.pc.step run s.h = some (h', pc') ∧
      s' = { s with
        h := h'
        workers := before ++ ⟨pc', if w.pc = .start then some s.h.id else w.got⟩ :: after } := by
  obtain ⟨w, hw, hstep⟩ := Option.bind_eq_some_iff.mp hstep
  obtain ⟨⟨h', pc'⟩, hpc, hstep⟩ := Option.bind_eq_some_iff.mp hstep
  cases hstep
  obtain ⟨hk, rfl⟩ := List.getElem?_eq_some_iff.mp hw
  refine ⟨s.workers.take k, s.workers[k], s.workers.drop (k + 1), h', pc', ?_, hpc, ?_⟩
  · rw [List.getElem_cons_drop, List.take_append_drop]
  · rw [List.set_eq_take_append_cons_drop, if_pos hk]

/-! ## Each step keeps it

A step of the loop adds a ring or a worker without an id. A step of a worker either gives it the
next id (`Assigned.takesId`) or leaves the ids as they are (`Assigned.keepsIds`). -/

theorem SetUp.start_assigned (threads : Nat) (h : SessionMem) :
    Assigned threads (.start threads h) where
  inside := LoopPc.test_inside
  started := (LoopPc.test_started (Nat.zero_le threads)).symm
  ready := nofun
  prepared := fun _ hj => by
    rw [SetUp.start, LoopPc.test_prepared] at hj
    cases hj
  given := rfl
  below := nofun
  nodup := List.nodup_nil
  waiting := nofun
  stays := nofun

/-- A worker that has no id yet leaves fewer ids given out than workers started. -/
theorem Assigned.id_lt (hs : Assigned threads s) {w : Worker} (hw : w ∈ s.workers)
    (hpc : w.pc = .start) : s.h.id < s.workers.length := by
  rw [hs.given, SetUp.ids, List.length_filterMap_lt_length_iff_exists]
  exact ⟨w, hw, (hs.waiting w hw).mp hpc⟩

/-- A started worker has no id, and its ring is the one just prepared. -/
theorem Assigned.spawn {j : Nat} (hs : Assigned threads s) (hloop : s.loop = .spawn j) :
    Assigned threads { s with
      workers := s.workers ++ [⟨.start, none⟩]
      loop := .test threads (j + 1) } := by
  have hinside := hs.inside
  have hlength := hs.started
  have hprepared := hs.prepared
  rw [hloop] at hinside hlength hprepared
  have hlength : s.workers.length = j := hlength
  have hids : (s.workers ++ [(⟨.start, none⟩ : Worker)]).filterMap Worker.got = s.ids := by
    simp [SetUp.ids]
  exact
    { inside := LoopPc.test_inside
      started := by
        rw [LoopPc.test_started (Nat.succ_le_of_lt hinside), List.length_append, hlength]
        rfl
      ready := fun i hi => by
        rw [List.length_append, List.length_singleton] at hi
        rcases Nat.lt_succ_iff_lt_or_eq.mp hi with hlt | rfl
        · exact hs.ready i hlt
        · exact hprepared _ (hlength ▸ rfl)
      prepared := fun i hi => by
        rw [LoopPc.test_prepared] at hi
        cases hi
      given := by
        rw [SetUp.ids, hids]
        exact hs.given
      below := by
        rw [SetUp.ids, hids]
        exact hs.below
      nodup := by
        rw [SetUp.ids, hids]
        exact hs.nodup
      waiting := fun w hw => by
        rcases List.mem_append.mp hw with hw | hw
        · exact hs.waiting w hw
        · cases List.mem_singleton.mp hw
          exact iff_of_true rfl rfl
      stays := fun w hw => by
        rcases List.mem_append.mp hw with hw | hw
        · exact hs.stays w hw
        · cases List.mem_singleton.mp hw
          nofun }

theorem Assigned.loopStep {allocated : Bool} (hs : Assigned threads s)
    (hstep : s.loopStep threads mtu hdr allocated = some s') : Assigned threads s' := by
  have hinside := hs.inside
  have hstarted := hs.started
  have hprepared := hs.prepared
  unfold SetUp.loopStep at hstep
  cases hloop : s.loop with
  | init j =>
    rw [hloop] at hstep hinside hstarted
    obtain ⟨⟨q, pool⟩, -, rfl⟩ := Option.map_eq_some_iff.mp hstep
    exact { hs with
      inside := hinside
      started := hstarted
      ready := fun i hi => List.mem_cons_of_mem _ (hs.ready i hi)
      prepared := fun i hi => by
        cases hi
        exact List.mem_cons_self .. }
  | label j =>
    rw [hloop] at hstep hinside hstarted hprepared
    cases hstep
    exact { hs with
      inside := hinside
      started := hstarted
      prepared := hprepared }
  | spawn j =>
    rw [hloop] at hstep
    cases hstep
    exact hs.spawn hloop
  | done =>
    rw [hloop] at hstep
    cases hstep

section Replace

variable {before after : List Worker} {w new w' : Worker}

/-- Another worker in the place of `w`. -/
theorem mem_replaced (hw' : w' ∈ before ++ new :: after) :
    w' = new ∨ w' ∈ before ++ w :: after := by
  simp only [List.mem_append, List.mem_cons] at hw' ⊢
  tauto

theorem length_replaced :
    (before ++ new :: after).length = (before ++ w :: after).length := by
  rw [List.length_append, List.length_append, List.length_cons, List.length_cons]

/-- A worker takes the next id. -/
theorem Assigned.takesId (hs : Assigned threads s) (hint : threads < 2 ^ 31)
    (hworkers : s.workers = before ++ w :: after) (hstart : w.pc = .start)
    (hid : h'.id = inc32 s.h.id) :
    Assigned threads { s with
      h := h'
      workers := before ++ ⟨.setup s.h.id, some s.h.id⟩ :: after } := by
  have hw : w ∈ s.workers := by simp [hworkers]
  have hle := hs.inside.started_le
  rw [← hs.started] at hle
  have hlt := hs.id_lt hw hstart
  have hinc : inc32 s.h.id = s.h.id + 1 := inc32_of_lt hlt (by omega)
  have hids : s.ids = before.filterMap Worker.got ++ after.filterMap Worker.got := by
    rw [SetUp.ids, hworkers, List.filterMap_append,
      List.filterMap_cons_none ((hs.waiting w hw).mp hstart)]
  have hnew : (before ++ (⟨.setup s.h.id, some s.h.id⟩ : Worker) :: after).filterMap Worker.got =
      before.filterMap Worker.got ++ s.h.id :: after.filterMap Worker.got := by
    simp
  have hgiven := hs.given
  have hbelow := hs.below
  have hnodup := hs.nodup
  rw [hids] at hgiven hbelow hnodup
  exact
    { inside := hs.inside
      started := by rw [length_replaced, ← hworkers, hs.started]
      ready := fun i hi => hs.ready i (by rwa [hworkers, length_replaced])
      prepared := hs.prepared
      given := by
        rw [hid, hinc, SetUp.ids, hnew]
        rw [List.length_append] at hgiven
        rw [List.length_append, List.length_cons]
        omega
      below := fun i hi => by
        rw [SetUp.ids, hnew, List.mem_append, List.mem_cons] at hi
        rw [hid, hinc]
        rcases hi with hi | rfl | hi
        · exact Nat.lt_succ_of_lt (hbelow i (List.mem_append_left _ hi))
        · exact Nat.lt_succ_self _
        · exact Nat.lt_succ_of_lt (hbelow i (List.mem_append_right _ hi))
      nodup := by
        rw [SetUp.ids, hnew, List.nodup_middle, List.nodup_cons]
        exact ⟨fun h => Nat.lt_irrefl _ (hbelow _ h), hnodup⟩
      waiting := fun w' hw' => by
        rcases mem_replaced hw' with rfl | hw'
        · exact iff_of_false nofun nofun
        · exact hs.waiting w' (hworkers ▸ hw')
      stays := fun w' hw' i hi => by
        rcases mem_replaced hw' with rfl | hw'
        · exact hi
        · exact hs.stays w' (hworkers ▸ hw') i hi }

/-- A worker that has its id moves on. -/
theorem Assigned.keepsIds (hs : Assigned threads s) (hworkers : s.workers = before ++ w :: after)
    (hne : w.pc ≠ .start) (hid : h'.id = s.h.id) (hpc' : pc' ≠ .start)
    (hqueue : ∀ i, pc'.queue = some i → w.pc.queue = some i) :
    Assigned threads { s with h := h', workers := before ++ ⟨pc', w.got⟩ :: after } := by
  have hw : w ∈ s.workers := by simp [hworkers]
  have hnew : (before ++ (⟨pc', w.got⟩ : Worker) :: after).filterMap Worker.got = s.ids := by
    rw [SetUp.ids, hworkers, List.filterMap_append, List.filterMap_append, List.filterMap_cons,
      List.filterMap_cons]
  exact
    { inside := hs.inside
      started := by rw [length_replaced, ← hworkers, hs.started]
      ready := fun i hi => hs.ready i (by rwa [hworkers, length_replaced])
      prepared := hs.prepared
      given := by
        rw [SetUp.ids, hnew, hid]
        exact hs.given
      below := fun i hi => by
        rw [SetUp.ids, hnew] at hi
        exact hid ▸ hs.below i hi
      nodup := by
        rw [SetUp.ids, hnew]
        exact hs.nodup
      waiting := fun w' hw' => by
        rcases mem_replaced hw' with rfl | hw'
        · exact iff_of_false hpc' fun h => hne ((hs.waiting w hw).mpr h)
        · exact hs.waiting w' (hworkers ▸ hw')
      stays := fun w' hw' i hi => by
        rcases mem_replaced hw' with rfl | hw'
        · exact hs.stays w hw i (hqueue i hi)
        · exact hs.stays w' (hworkers ▸ hw') i hi }

end Replace

theorem Assigned.workerStep (hs : Assigned threads s) (hint : threads < 2 ^ 31)
    (hstep : s.workerStep k run = some s') : Assigned threads s' := by
  obtain ⟨before, w, after, h', pc', hworkers, hpc, rfl⟩ := SetUp.workerStep_some hstep
  rcases WorkerPc.step_id hpc with ⟨hstart, hid, rfl⟩ | ⟨hne, hid, hpc', hqueue⟩
  · rw [if_pos hstart]
    exact hs.takesId hint hworkers hstart hid
  · rw [if_neg hne]
    exact hs.keepsIds hworkers hne hid hpc' hqueue

theorem Assigned.turn {t : Turn} (hs : Assigned threads s) (hint : threads < 2 ^ 31)
    (hstep : s.turn threads mtu hdr t = some s') : Assigned threads s' := by
  cases t with
  | loop allocated => exact hs.loopStep hstep
  | worker k run => exact hs.workerStep hint hstep

/-! ## What it says about the queues

When every worker has an id these are as many different numbers below `threads` as there are
queues, so none is left out. -/

theorem SetUp.onQueue_eq (s : SetUp) (i : Nat) : s.onQueue i = s.ids.count i := by
  rw [SetUp.ids, List.count_filterMap]
  rfl

theorem Assigned.oneWorkerEach (hs : Assigned threads s) : OneWorkerEach threads s := by
  have hle := hs.inside.started_le
  rw [← hs.started] at hle
  have hgiven : s.h.id ≤ s.workers.length := by
    rw [hs.given]
    exact List.length_filterMap_le ..
  refine ⟨fun w hw hpc => ?_, fun w hw i hi => ?_, hs.stays, fun i => ?_,
    fun hlength hall i hi => ?_⟩
  · exact Option.ne_none_iff_exists'.mp fun hnone => hpc ((hs.waiting w hw).mpr hnone)
  · have hlt := hs.below i (List.mem_filterMap.mpr ⟨w, hw, hi⟩)
    exact ⟨by omega, hs.ready i (by omega)⟩
  · rw [s.onQueue_eq]
    exact List.nodup_iff_count_le_one.mp hs.nodup i
  · -- as many distinct ids below `threads` as there are queues
    have hids : s.ids.length = threads := by
      rw [← hlength, SetUp.ids, List.length_filterMap_eq_countP, List.countP_eq_length]
      exact hall
    have hsub : s.ids ⊆ List.range threads := fun j hj =>
      List.mem_range.mpr (by have := hs.below j hj; omega)
    have hperm : s.ids.Perm (List.range threads) :=
      (List.Nodup.subperm hs.nodup hsub).perm_of_length_le (by rw [List.length_range, hids])
    rw [s.onQueue_eq, hperm.count_eq, List.count_eq_one_of_mem List.nodup_range]
    exact List.mem_range.mpr hi

/-- **One worker per queue.** In every interleaving of the loop with the workers it has started,
each worker gets the id of a ring already initialised, and each ring gets one worker. -/
theorem oneWorkerEach_of_run (hint : threads < 2 ^ 31) (mtu : Nat) (hdr : Headers)
    (h : SessionMem) (turns : List Turn)
    (hrun : Run.exec (SetUp.turn threads mtu hdr) (.start threads h) turns = some s) :
    OneWorkerEach threads s :=
  (Run.invariant (Assigned threads) (fun _ _ _ hs hstep => hs.turn hint hstep) hrun
    (SetUp.start_assigned threads h)).oneWorkerEach

end Assign

/-- A session structure filled with zeros. -/
def zeroSession : SessionMem := ⟨0, 0, fun _ => emptyRing 0 0, fun _ _ => 0⟩

/-- The loop around three rings; the second worker runs before the third ring exists, the third
next and the first one last. -/
def lateFirst : List Turn :=
  [.loop true, .loop true, .loop true, .loop true, .loop true, .loop true, .worker 1 true,
    .loop true, .loop true, .loop true, .worker 2 true, .worker 0 true]

/-- They take the queues in the order in which they ran. -/
theorem oneWorkerEach_lateFirst :
    ∃ s, Run.exec (SetUp.turn 3 1500 (fillHeaders 7 9 ⟨Vector.replicate 6 1, none⟩))
        (.start 3 zeroSession) lateFirst = some s ∧
      s.workers.map Worker.got = [some 2, some 0, some 1] ∧ OneWorkerEach 3 s := by
  generalize fillHeaders 7 9 ⟨Vector.replicate 6 1, none⟩ = hdr
  have hring := fun q => @initRingBuffer_eq 1500 (bufSize / 3) q hdr (by decide) (by decide)
    (by decide)
  have hgots : (Run.exec (SetUp.turn 3 1500 hdr) (.start 3 zeroSession) lateFirst).map
      (fun s => s.workers.map Worker.got) = some [some 2, some 0, some 1] := by
    simp only [lateFirst, Run.exec, SetUp.turn, SetUp.loopStep, SetUp.start, LoopPc.test,
      zeroSession, hring, Option.map_some, Option.bind_some, Nat.reduceAdd, Nat.reduceLT, if_true]
    rfl
  obtain ⟨s, hrun, hgot⟩ := Option.map_eq_some_iff.mp hgots
  exact ⟨s, hrun, hgot, oneWorkerEach_of_run (by decide) _ _ _ _ hrun⟩

end Lanes
