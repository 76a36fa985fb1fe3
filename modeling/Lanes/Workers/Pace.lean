import Lanes.Lib.Run
import Lanes.Ring.Pool
import Lanes.Workers.Shutdown

/-!
# How a worker starts and how long it waits

The queue structures come from `malloc`. `init_ring_buffer` fills in the slots and clears `lock` and
`full`; the worker that takes the queue sets its id and, in `tx` only, the wait time `q.ts` (`rx`
sets a variable of its own that nothing reads). Nobody sets `in`, `out` and `sz` before the first
pop. From then on a worker that finds its ring empty lengthens the wait time, up to four times the
shortest, and sleeps until the count changes.

The worker is the one of `Workers.Shutdown`; `Sleeper` adds the fields that its waits use and a
record of its sleeps. `Paced` is the invariant behind the start-up code. What `malloc` returned
decides the rest, and `startsUp_iff` says which of its fields have to be zero and for which workers
the wait time has to be right already.
-/

namespace Lanes

/-- `struct timespec`. -/
structure Timespec where
  sec : Int
  nsec : Int
  deriving Repr, DecidableEq

/-- `SLOWSPIN`, in nanoseconds. -/
def slowSpin : Int := 2000

/-- A queue structure with the fields that its worker keeps for its waits. -/
structure PacedQ where
  q : Q
  spins : Nat
  ts : Timespec

/-! ## The worker and its wait time

`pace` gives the assignments to `q.spins` and `q.ts` that come with a step, so that the step itself
stays the one of `WorkerPc`. Other threads may change the session between two steps in any way.
-/

/-- A worker, with the wait time of its queue and the sleeps it has made so far; no step reads
those. -/
structure Sleeper where
  h : SessionMem
  pc : WorkerPc
  spins : Nat
  ts : Timespec
  slept : List Timespec

/-- Longer after every empty pop, and from the longest back to the shortest. -/
def adaptWait (ts : Timespec) : Timespec :=
  if ts.nsec ≥ slowSpin * 4 then { ts with nsec := slowSpin }
  else { ts with nsec := ts.nsec + slowSpin / 10 }

/-- What happens next: a step of the worker, where `run` is the value of `global.run == 1`, or
anything that other threads do to the session. No other thread writes `q.ts`. -/
inductive Beat where
  | own (run : Bool)
  | others (h : SessionMem)

namespace Sleeper

/-- The assignments to `q.spins` and `q.ts` that come with the next step of the worker. -/
def pace (d : Dir) (s : Sleeper) : Nat × Timespec :=
  match s.pc, d with
  | .setup _, .egress => (0, { sec := 0, nsec := slowSpin })
  -- the time that `rx` sets is not that of the queue
  | .setup _, .ingress => (s.spins, s.ts)
  | .adapting _, _ => (s.spins, adaptWait s.ts)
  | _, _ => (s.spins, s.ts)

/-- The next step of the worker is a `nanosleep`. -/
def sleeps (s : Sleeper) : Bool :=
  match s.pc with
  | .waiting i => (s.h.q i).sz == 0
  | _ => false

def step (d : Dir) (s : Sleeper) : Beat → Option Sleeper
  | .own run =>
    (s.pc.step run s.h).map fun (h, pc) =>
      { h := h
        pc := pc
        spins := (s.pace d).1
        ts := (s.pace d).2
        slept := if s.sleeps then s.slept ++ [s.ts] else s.slept }
  | .others h => some { s with h := h }

/-- The worker has its id `i`, and the queue is the `j`-th that the session initialised: `mem` is
what `malloc` returned and `q` what `init_ring_buffer` made of it. -/
def takes (i j : Nat) (h : SessionMem) (mem : PacedQ) (q : Q) : Sleeper where
  h := h.setQ i { q with id := j }
  pc := .setup i
  spins := mem.spins
  ts := mem.ts
  slept := []

end Sleeper

/-! ## A clean start and short waits -/

/-- The start invariant of the ring, and the shortest wait. -/
structure StartsClean (i : Nat) (s : Sleeper) : Prop where
  inIdx : (s.h.q i).inIdx = 0
  outIdx : (s.h.q i).outIdx = 0
  sz : (s.h.q i).sz = 0
  lock : (s.h.q i).lock = false
  full : (s.h.q i).full = false
  unlocked : ∀ k < (s.h.q i).rsz, ((s.h.q i).R k).lock = false
  ts : s.ts = { sec := 0, nsec := slowSpin }

/-- A wait between `SLOWSPIN` and `4 * SLOWSPIN` nanoseconds. -/
def ShortWait (ts : Timespec) : Prop := ts.sec = 0 ∧ slowSpin ≤ ts.nsec ∧ ts.nsec ≤ 4 * slowSpin

/-- After the start-up code of the worker the queue is clean, and every sleep from then on is
short. -/
def StartsUp (d : Dir) (i : Nat) (s : Sleeper) : Prop :=
  ∀ run s₁, s.step d (.own run) = some s₁ → StartsClean i s₁ ∧
    ∀ beats s₂, Run.exec (Sleeper.step d) s₁ beats = some s₂ → ∀ ts ∈ s₂.slept, ShortWait ts

section Pace

variable {d : Dir} {i j size mtu : Nat} {hdr : Headers} {s s' : Sleeper} {ts : Timespec} {b : Beat}
  {h : SessionMem} {mem : PacedQ} {q : Q} {pool : Mem}

/-! ## The waits of a run

The wait time starts at ten steps of 200 ns and is lengthened by one step at a time, or set back to
ten. So forty steps is the most it gets to, and no sleep is longer.
-/

/-- The worker is in its start-up code. -/
def WorkerPc.starting : WorkerPc → Bool
  | .start | .setup _ => true
  | _ => false

/-- The wait time is short, and a whole number of the steps it is lengthened by. -/
structure Paced (s : Sleeper) : Prop where
  sec : s.ts.sec = 0
  steps : ∃ k : Nat, s.ts.nsec = 200 * k ∧ 10 ≤ k ∧ k ≤ 40
  started : s.pc.starting = false
  slept : ∀ ts ∈ s.slept, ShortWait ts

theorem slowSpin_eq : slowSpin = 2000 := rfl

theorem Paced.shortWait (h : Paced s) : ShortWait s.ts := by
  obtain ⟨k, hk, hlo, hhi⟩ := h.steps
  rw [ShortWait, slowSpin_eq, hk]
  exact ⟨h.sec, by omega, by omega⟩

theorem adaptWait_steps {k : Nat} (hk : ts.nsec = 200 * k) (hlo : 10 ≤ k) (hhi : k ≤ 40) :
    (adaptWait ts).sec = ts.sec ∧ ∃ k : Nat, (adaptWait ts).nsec = 200 * k ∧ 10 ≤ k ∧ k ≤ 40 := by
  unfold adaptWait
  rw [slowSpin_eq]
  split
  · exact ⟨rfl, 10, rfl, by decide, by decide⟩
  · -- below the longest wait there is room for one more step
    exact ⟨rfl, k + 1, by simp only; omega, by omega, by omega⟩

/-- Once it is past its start-up code a worker does not come back to it. -/
theorem WorkerPc.step_starting {run : Bool} {pc pc' : WorkerPc} {h' : SessionMem}
    (hpc : pc.starting = false) (hstep : pc.step run h = some (h', pc')) :
    pc'.starting = false := by
  cases pc with
  | start => cases hpc
  | setup i => cases hpc
  | exited => cases hstep
  | top i =>
    cases hstep
    cases run <;> rfl
  | waiting i =>
    cases hstep
    split <;> rfl
  | _ =>
    simp only [step] at hstep
    repeat' split at hstep
    all_goals
      cases hstep
      rfl

/-- Past the start-up code the wait time is adapted or left alone. -/
theorem Sleeper.pace_of_started (hpc : s.pc.starting = false) :
    (s.pace d).2 = adaptWait s.ts ∨ (s.pace d).2 = s.ts := by
  unfold pace
  cases hs : s.pc with
  | start => exact Or.inr rfl
  | setup i =>
    rw [hs] at hpc
    cases hpc
  | adapting i => exact Or.inl rfl
  | _ => exact Or.inr rfl

theorem Paced.step (hs : Paced s) (hstep : s.step d b = some s') : Paced s' := by
  cases b with
  | others h =>
    cases hstep
    exact { hs with }
  | own run =>
    obtain ⟨⟨h', pc'⟩, hpc, rfl⟩ := Option.map_eq_some_iff.mp hstep
    have hwait : (s.pace d).2.sec = 0 ∧
        ∃ k : Nat, (s.pace d).2.nsec = 200 * k ∧ 10 ≤ k ∧ k ≤ 40 := by
      rcases Sleeper.pace_of_started (d := d) hs.started with hadapt | hsame
      · obtain ⟨k, hk, hlo, hhi⟩ := hs.steps
        obtain ⟨hsec, hsteps⟩ := adaptWait_steps hk hlo hhi
        rw [hadapt]
        exact ⟨hsec.trans hs.sec, hsteps⟩
      · rw [hsame]
        exact ⟨hs.sec, hs.steps⟩
    refine ⟨hwait.1, hwait.2, WorkerPc.step_starting hs.started hpc, fun ts hts => ?_⟩
    by_cases hsleeps : s.sleeps = true
    · -- the sleep is one with the wait time of before the step
      simp only [if_pos hsleeps, List.mem_append, List.mem_singleton] at hts
      rcases hts with hts | rfl
      · exact hs.slept ts hts
      · exact hs.shortWait
    · simp only [if_neg hsleeps] at hts
      exact hs.slept ts hts

/-- From the shortest wait on, every sleep is short. -/
theorem paced_of_shortest (hpc : s.pc.starting = false) (hslept : s.slept = [])
    (hts : s.ts = { sec := 0, nsec := slowSpin }) : Paced s where
  sec := by rw [hts]
  steps := ⟨10, by rw [hts]; rfl, by decide, by decide⟩
  started := hpc
  slept := by
    rw [hslept]
    nofun

/-! ## The start

The start-up code is one step. The fields that neither it nor `init_ring_buffer` writes are those of
the memory that `malloc` returned.
-/

/-- The start-up code of the worker on its queue. -/
theorem Sleeper.step_takes (run : Bool) :
    (takes i j h mem q).step d (.own run) = some
      { h := h.setQ i { q with id := i }
        pc := .top i
        spins := ((takes i j h mem q).pace d).1
        ts := ((takes i j h mem q).pace d).2
        slept := [] } := by
  simp only [step, takes, WorkerPc.step, SessionMem.setQ_q, SessionMem.setQ_setQ, Option.map_some,
    sleeps]
  rfl

/-- `init_ring_buffer` and the id leave the cursors and the count as `malloc` returned them. -/
theorem startsClean_iff {spins : Nat} {slept : List Timespec} {pc : WorkerPc} {allocated : Bool}
    (hinit : initRingBuffer mem.q size mtu hdr allocated = some (q, pool)) :
    StartsClean i ⟨h.setQ i { q with id := i }, pc, spins, ts, slept⟩ ↔
      (mem.q.inIdx = 0 ∧ mem.q.outIdx = 0 ∧ mem.q.sz = 0) ∧
        ts = { sec := 0, nsec := slowSpin } := by
  obtain ⟨bsz, rsz, R, rfl, hunlocked⟩ := initRingBuffer_some hinit
  constructor
  · intro hclean
    have hin := hclean.inIdx
    have hout := hclean.outIdx
    have hsz := hclean.sz
    simp only [SessionMem.setQ_q] at hin hout hsz
    exact ⟨⟨hin, hout, hsz⟩, hclean.ts⟩
  · rintro ⟨⟨hin, hout, hsz⟩, hts⟩
    refine ⟨?_, ?_, ?_, ?_, ?_, fun k _ => ?_, hts⟩
    all_goals simp only [SessionMem.setQ_q]
    · exact hin
    · exact hout
    · exact hsz
    · exact hunlocked k

/-- The wait time after the start-up code: `tx` sets it, `rx` leaves what `malloc` returned. -/
theorem Sleeper.pace_takes :
    ((takes i j h mem q).pace d).2 = { sec := 0, nsec := slowSpin } ↔
      d = .egress ∨ mem.ts = { sec := 0, nsec := slowSpin } := by
  cases d with
  | egress => exact iff_of_true rfl (Or.inl rfl)
  | ingress => exact ⟨Or.inr, fun hts => hts.resolve_left nofun⟩

/-- **Start-up.** The ring starts clean and the waits stay short exactly when `malloc` returned
zeros for the cursors and the count, and the wait time of an `rx` worker too. -/
theorem startsUp_iff {allocated : Bool} (d : Dir) (i j : Nat) (h : SessionMem)
    (hinit : initRingBuffer mem.q size mtu hdr allocated = some (q, pool)) :
    StartsUp d i (.takes i j h mem q) ↔
      (mem.q.inIdx = 0 ∧ mem.q.outIdx = 0 ∧ mem.q.sz = 0) ∧
        (d = .egress ∨ mem.ts = { sec := 0, nsec := slowSpin }) := by
  constructor
  · intro hstarts
    obtain ⟨hclean, -⟩ := hstarts true _ (Sleeper.step_takes true)
    rw [startsClean_iff hinit, Sleeper.pace_takes] at hclean
    exact hclean
  · rintro hclean run s₁ hstep
    rw [Sleeper.step_takes] at hstep
    cases hstep
    rw [← Sleeper.pace_takes (i := i) (j := j) (h := h) (q := q)] at hclean
    refine ⟨(startsClean_iff hinit).mpr hclean, fun beats s₂ hrun => ?_⟩
    exact (Run.invariant Paced (fun _ _ _ hs hstep => hs.step hstep) hrun
      (paced_of_shortest rfl rfl hclean.2)).slept

end Pace

/-- A queue structure filled with zeros, but for the wait time. -/
def mallocQ (ts : Timespec) : PacedQ := ⟨emptyRing 0 0, 0, ts⟩

theorem startsUp_tx :
    ∃ q pool, initRingBuffer (mallocQ ⟨5, -1⟩).q 76 34
        (fillHeaders 7 9 ⟨Vector.replicate 6 1, none⟩) true = some (q, pool) ∧
      StartsUp .egress 0 (.takes 0 0 ⟨0, 1, fun _ => emptyRing 0 0, fun _ => pool⟩ (mallocQ ⟨5, -1⟩)
        q) :=
  have hinit := initRingBuffer_eq (mallocQ ⟨5, -1⟩).q (fillHeaders 7 9 ⟨Vector.replicate 6 1, none⟩)
    (show 34 ≤ 34 by decide) (by decide) (show 76 < 2 ^ 32 by decide)
  ⟨_, _, hinit, (startsUp_iff .egress 0 0 _ hinit).mpr ⟨⟨rfl, rfl, rfl⟩, Or.inl rfl⟩⟩

/-- An `rx` worker on memory with a wait of five seconds in it. -/
theorem startsUp_fails :
    ¬ ∀ (d : Dir) (i j : Nat) (h : SessionMem) (mem : PacedQ) (size mtu : Nat) (hdr : Headers)
      (q : Q) (pool : Mem), initRingBuffer mem.q size mtu hdr true = some (q, pool) →
      StartsUp d i (.takes i j h mem q) := by
  intro hall
  have hinit := initRingBuffer_eq (mallocQ ⟨5, 0⟩).q (fillHeaders 7 9 ⟨Vector.replicate 6 1, none⟩)
    (show 34 ≤ 34 by decide) (by decide) (show 76 < 2 ^ 32 by decide)
  obtain ⟨hclean, -⟩ := hall .ingress 0 0 ⟨0, 1, fun _ => emptyRing 0 0, fun _ _ => 0⟩ _ _ _ _ _ _
    hinit true _ (Sleeper.step_takes true)
  exact absurd hclean.ts (by decide)

end Lanes
