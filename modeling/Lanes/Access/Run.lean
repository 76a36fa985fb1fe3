import Lanes.Access.Worker

/-!
# Runs of single accesses

Both threads keep the invariant as long as `reset_ring` runs alone, so it holds in every state of
such a run. The results of this grain are read off it:

* **`access_bounds`**: no access leaves the ring, and `sz` and the cursors stay within it;
* **`access_exclusion`**: `q->lock` and the slots have one holder at most, and each call returns the
  slot that it locked.

Nothing is said of the number of packets. `lostUpdate` is a run in which the release of the worker
loses the count of a commit, so that `sz` is 0 with a packet in the ring.
-/

namespace Lanes

/-! ## One step

The two threads have their own modules; what is left is the length that a read stores, which the
producer writes into its slot between its calls. -/

section Run

variable {s₀ s s' : Shared} {a : Access} {as : List Access}

/-- A length touches no lock and no cursor. -/
theorem AccessInv.stored (h : AccessInv s) (n : Int) (got : Nat) :
    AccessInv { s with q := s.q.setLen got n } := by
  have hlocks : LockMove s.q s.prod.hold (s.q.setLen got n) s.prod.hold := by
    refine .keep rfl fun j _ => ?_
    by_cases hj : j = got <;> simp [Q.setLen, hj]
  exact
    { safe := h.safe
      three := h.three
      bound := h.bound
      sz_le := h.sz_le
      out_lt := h.out_lt
      locks := h.locks.move rfl hlocks
      prod := h.prod
      work := h.work
      cursor := h.cursor
      alone := h.alone }

/-- What a step can do. -/
theorem AccessInv.step_cases (h : AccessInv s) (halone : ResetAlone s a)
    (ha : accessStep s a = some s') :
    (a = .producer ∧ ∃ q' p', s.prod.next s.q = .ok (q', p') ∧ PushDone s q' p' ∧
      s' = { s with q := q', prod := p' }) ∨
    (a = .worker ∧ ∃ q' w', s.work.next s.q = .ok (q', w') ∧ PopDone s q' w' ∧
      s' = { s with q := q', work := w' }) ∨
    ∃ n took got, a = .stored n ∧ s.prod = .holding took got ∧
      s' = { s with q := s.q.setLen got n } := by
  unfold accessStep at ha
  rw [if_neg (by simp [h.safe])] at ha
  cases a with
  | producer =>
    obtain ⟨q', p', hnext, hdone⟩ := h.producer_next
    refine .inl ⟨rfl, q', p', hnext, hdone, ?_⟩
    simpa only [Shared.producer, hnext, Option.some.injEq, eq_comm] using ha
  | worker =>
    obtain ⟨q', w', hnext, hdone⟩ := h.worker_next halone
    refine .inr (.inl ⟨rfl, q', w', hnext, hdone, ?_⟩)
    simpa only [Shared.worker, hnext, Option.some.injEq, eq_comm] using ha
  | stored n =>
    cases hp : s.prod with
    | holding took got =>
      have hf := h.prod
      rw [hp] at hf
      simp only [hp, if_pos hf.2.1, Option.some.injEq] at ha
      exact .inr (.inr ⟨n, took, got, rfl, rfl, hp ▸ ha.symm⟩)
    | _ => simp [hp] at ha

theorem AccessInv.step (h : AccessInv s) (halone : ResetAlone s a)
    (ha : accessStep s a = some s') : AccessInv s' := by
  obtain ⟨rfl, q', p', -, hdone, rfl⟩ | ⟨rfl, q', w', -, hdone, rfl⟩ |
    ⟨n, took, got, rfl, hp, rfl⟩ := h.step_cases halone ha
  · exact h.producer halone hdone
  · exact h.worker hdone
  · exact h.stored n got

theorem Shared.Start.inv (h : s.Start) : AccessInv s where
  safe := h.fault
  three := h.ring.three
  bound := h.ring.bound
  sz_le := by
    rw [h.ring.sz]
    exact Nat.zero_le _
  out_lt := by
    have := h.ring.three
    rw [h.ring.outIdx]
    omega
  locks :=
    { ring := by simp [h.ring.free, h.prod, h.work, PushAt.hold, PopAt.hold, PushAt.inside,
        PopAt.inside]
      one := by simp [h.prod, PushAt.hold, PushAt.inside]
      slots := fun i hi => by simp [h.ring.unlocked i hi, h.prod, h.work, PushAt.hold, PopAt.hold,
        PushAt.owns, PopAt.owns]
      apart := by simp [h.prod, PushAt.hold, PushAt.owns] }
  prod := by
    have := h.ring.three
    rw [h.prod]
    simp only [PushAt.Fits, h.ring.inIdx]
    omega
  work := by
    rw [h.work]
    trivial
  cursor took got hp := by
    rw [h.prod] at hp
    cases hp
  alone hr := by
    rw [h.work] at hr
    cases hr

/-! ## Every run

The invariant holds at the start and each access keeps it; the results are read off it.
-/

theorem accessInv_of_alone (h₀ : s₀.Start) (hok : Run.Within accessStep ResetAlone s₀ as)
    (hrun : Run.exec accessStep s₀ as = some s) : AccessInv s :=
  Run.invariant_of_within AccessInv (fun _ _ _ h hok ha => h.step hok ha) hok hrun h₀.inv

/-- **Bounds.** In every interleaving of single accesses in which `reset_ring` runs alone no access
leaves the ring, the count of packets stays within the size of the ring and the cursors stay within
it too, whichever updates of the count are lost. -/
theorem access_bounds (h₀ : s₀.Start) (hok : Run.Within accessStep ResetAlone s₀ as)
    (hrun : Run.exec accessStep s₀ as = some s) :
    s.fault = none ∧ s.q.sz ≤ s.q.rsz ∧ s.q.inIdx ≤ s.q.rsz ∧ s.q.outIdx < s.q.rsz := by
  have h := accessInv_of_alone h₀ hok hrun
  refine ⟨h.safe, h.sz_le, ?_, h.out_lt⟩
  have hf := h.prod
  cases hp : s.prod <;> rw [hp] at hf <;> simp only [PushAt.Fits] at hf <;> omega

/-- **Exclusion.** In these runs at most one thread is between its two accesses of `q->lock`, a slot
is locked exactly while one of the threads holds it, no slot is held by both, and each call returns
the slot that it locked. -/
theorem access_exclusion (h₀ : s₀.Start) (hok : Run.Within accessStep ResetAlone s₀ as)
    (hrun : Run.exec accessStep s₀ as = some s) :
    ¬ (s.prod.inside = true ∧ s.work.inside = true) ∧
      (∀ i < s.q.rsz, (s.q.R i).lock = true ↔ s.prod.owns = some i ∨ s.work.owns = some i) ∧
      (∀ i, s.prod.owns = some i → s.work.owns ≠ some i) ∧
      (∀ took got, s.prod = .holding took got → got = took) ∧
      (∀ took got, s.work = .holding took got → took = some got) := by
  have h := accessInv_of_alone h₀ hok hrun
  refine ⟨fun ⟨hp, hw⟩ => ?_, h.locks.slots, h.locks.apart, fun took got hp => ?_,
    fun took got hw => ?_⟩
  · have := h.locks.one hp
    rw [show s.work.inside = false from this] at hw
    cases hw
  · have hf := h.prod
    rw [hp] at hf
    exact hf.1
  · have hf := h.work
    rw [hw] at hf
    exact hf.1

end Run

/-- An empty ring of three slots and two idle threads. -/
def smallShared : Shared := ⟨emptyRing 3 60, .idle, .idle, none⟩

theorem smallShared_start : smallShared.Start :=
  ⟨emptyRing_start (by decide) (by decide), rfl, rfl, rfl⟩

/-- The worker loads `sz` for its release, the producer commits a second packet, and the worker
stores what it has computed from the old value. -/
def lostUpdate : List Access :=
  List.replicate 10 .producer ++ [.stored 60] ++ List.replicate 6 .producer ++
    List.replicate 15 .worker ++ List.replicate 16 .producer ++ List.replicate 2 .worker

theorem access_bounds_lostUpdate :
    ∃ s, Run.exec accessStep smallShared lostUpdate = some s ∧ s.q.sz = 0 ∧ s.q.inIdx = 2 ∧
      s.q.outIdx = 1 ∧ s.fault = none ∧ s.q.sz ≤ s.q.rsz ∧ s.q.inIdx ≤ s.q.rsz ∧
      s.q.outIdx < s.q.rsz := by
  have hrun : (Run.exec accessStep smallShared lostUpdate).map
      (fun s => (s.q.sz, s.q.inIdx, s.q.outIdx)) = some (0, 2, 1) := by decide +kernel
  obtain ⟨s, hs, hq⟩ := Option.map_eq_some_iff.mp hrun
  simp only [Prod.mk.injEq] at hq
  exact ⟨s, hs, hq.1, hq.2.1, hq.2.2, access_bounds smallShared_start
    (by decide +kernel : Run.Within accessStep ResetAlone smallShared lostUpdate) hs⟩

theorem access_exclusion_lostUpdate :
    ∃ s, Run.exec accessStep smallShared (lostUpdate.take 47) = some s ∧
      ¬ (s.prod.inside = true ∧ s.work.inside = true) ∧
      (∀ i < s.q.rsz, (s.q.R i).lock = true ↔ s.prod.owns = some i ∨ s.work.owns = some i) ∧
      (∀ i, s.prod.owns = some i → s.work.owns ≠ some i) ∧
      (∀ took got, s.prod = .holding took got → got = took) ∧
      (∀ took got, s.work = .holding took got → took = some got) := by
  have hrun : (Run.exec accessStep smallShared (lostUpdate.take 47)).isSome = true := by
    decide +kernel
  obtain ⟨s, hs⟩ := Option.isSome_iff_exists.mp hrun
  exact ⟨s, hs, access_exclusion smallShared_start
    (by decide +kernel : Run.Within accessStep ResetAlone smallShared (lostUpdate.take 47)) hs⟩

end Lanes
