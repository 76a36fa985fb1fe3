import Lanes.Ring.Slots

/-!
# The cursors of a ring that holds a queue

`n` slots wait, from `out` up to `in`, and `sz` counts them and the slot in the worker's hands. The
commit wraps `in` at `rsz` but `pop` wraps `out` at `rsz - 1`, and `reset_ring` moves both cursors
while the producer may hold a slot; every other step keeps the cursors in step with the queue.

This is the part that the ring as a queue of packets (`Ring/Fifo.lean`) and the ring as a set of
marked slots (`Ring/Calls.lean`) have in common: positions alone, with the slots addressed by their
place after `out`. Under `Cursors` the tests of `push` and `pop` say what they are meant to say
(`Cursors.pushFull_iff`, `Cursors.popEmpty_iff`).
-/

namespace Lanes

/-- The slot `k` places after `out`, wrapping at `rsz` as the commit does. -/
def slotAfter (q : Q) (k : Nat) : Nat :=
  if q.outIdx + k < q.rsz then q.outIdx + k else q.outIdx + k - q.rsz

section Places

variable {q : Q} {i j k n : Nat}

theorem slotAfter_lt (_ : q.outIdx < q.rsz) (_ : k < q.rsz) : slotAfter q k < q.rsz := by
  unfold slotAfter
  split <;> omega

theorem slotAfter_zero (hout : q.outIdx < q.rsz) : slotAfter q 0 = q.outIdx := if_pos hout

/-- Distinct places are distinct slots. -/
theorem slotAfter_ne (hj : j < q.rsz) (hjk : k < j) :
    slotAfter q k ≠ slotAfter q j := by
  unfold slotAfter
  split <;> split <;> omega

/-- Commit advances the place under `in`. -/
theorem slotAfter_succ (hout : q.outIdx < q.rsz) (hk : k + 1 < q.rsz) :
    slotAfter q (k + 1) = if slotAfter q k + 1 = q.rsz then 0 else slotAfter q k + 1 := by
  unfold slotAfter
  split <;> split <;> split <;> omega

/-- The slot just before `out` is `rsz - 1` places after it. -/
theorem slotAfter_ne_pred (_ : q.outIdx < q.rsz) (hk : k + 1 < q.rsz) (hi : q.outIdx = i + 1) :
    slotAfter q k ≠ i := by
  unfold slotAfter
  split <;> omega

theorem slotAfter_commit (k : Nat) : slotAfter (commit q i) k = slotAfter q k := by
  simp only [slotAfter, commit_outIdx, commit_rsz]

/-- A pop from the slot under `out` makes the next place the first. -/
theorem slotAfter_popTaken (htgt : popTarget q = q.outIdx) (k : Nat) :
    slotAfter (popTaken q) k = slotAfter q (k + 1) := by
  simp only [slotAfter, popTaken, popAcquired, Q.lockSlot_rsz, htgt]
  rw [show q.outIdx + 1 + k = q.outIdx + (k + 1) by omega]

end Places

/-! ## Cursors in step with the queue

`push` keeps one slot free and `sz` counts the worker's slot, too; `room` and the second part of
`prod` are what is left of the ring for the commit that is to come. -/

/-- `n` slots wait; `p` and `w` are the slots that the producer and the worker hold. -/
structure Cursors (q : Q) (n : Nat) (p w : Option Nat) : Prop where
  count : q.sz = n + if w = none then 0 else 1
  room : q.sz + 1 ≤ q.rsz
  cursor : q.inIdx = slotAfter q n
  prod : ∀ i, p = some i → q.inIdx = i ∧ q.sz + 2 ≤ q.rsz
  work : ∀ i, w = some i → q.outIdx = i + 1

section Cursors

variable {q : Q} {i k n : Nat} {p w : Option Nat}

theorem Q.Start.cursors (h : q.Start) : Cursors q 0 none none where
  count := by simp [h.sz]
  room := by
    have := h.three
    rw [h.sz]
    omega
  cursor := by
    have := h.three
    rw [h.inIdx, slotAfter_zero (by rw [h.outIdx]; omega), h.outIdx]
  prod _ hi := nomatch hi
  work _ hi := nomatch hi

theorem Cursors.lt (h : Cursors q n p w) : n + 1 ≤ q.rsz := by
  have := h.room
  have := h.count
  omega

/-- The worker's slot is one place behind `out`, so it is neither waiting nor under `in`. -/
theorem Cursors.work_ne (h : Cursors q n p w) (hown : Owned q p w) (hw : w = some i)
    (hk : k ≤ n) : slotAfter q k ≠ i := by
  have hcount := h.count
  rw [hw, if_neg (by simp)] at hcount
  have hroom := h.room
  exact slotAfter_ne_pred hown.out_lt (by omega) (h.work i hw)

/-- The producer's slot is under `in`, behind the waiting ones. -/
theorem Cursors.prod_ne (h : Cursors q n p w) (hp : p = some i) (hk : k < n) :
    slotAfter q k ≠ i := by
  rw [← (h.prod i hp).1, h.cursor]
  exact slotAfter_ne (by have := h.lt; omega) hk

/-- `push` takes the slot under `in`. -/
theorem Cursors.pushTarget_eq (h : Cursors q n none w) (hown : Owned q none w) :
    pushTarget q = q.inIdx := by
  refine if_neg fun hl => ?_
  have hw : w = some q.inIdx := by simpa using (hown.locked_iff _ hown.in_lt).mp hl
  exact h.work_ne hown hw (Nat.le_refl n) h.cursor.symm

/-- `in == out - 1` says nothing that `sz` does not say already. -/
theorem Cursors.pushFull_iff (h : Cursors q n none w) (hown : Owned q none w) :
    PushFull q ↔ q.rsz - 1 ≤ q.sz := by
  have hout := hown.out_lt
  have hbound := hown.bound
  have hcount := h.count
  have hlt := h.lt
  unfold PushFull
  rw [h.pushTarget_eq hown, h.cursor]
  refine or_iff_left_of_imp fun hin => ?_
  have hslot := slotAfter_lt hout (k := n) (by omega)
  by_cases h0 : q.outIdx = 0
  · rw [hin, dec32, if_pos h0] at hslot
    omega
  · rw [dec32_of_pos (by omega)] at hin
    unfold slotAfter at hin
    split at hin <;> omega

/-- `pop` finds nothing exactly when nothing waits. -/
theorem Cursors.popEmpty_iff (h : Cursors q n p none) (hown : Owned q p none) :
    PopEmpty q ↔ n = 0 := by
  have hcount := h.count
  rw [if_pos rfl] at hcount
  have hout := hown.out_lt
  have hlt := h.lt
  constructor
  · rintro (hsz | hcur)
    · omega
    · rw [h.cursor] at hcur
      unfold slotAfter at hcur
      split at hcur <;> omega
  · intro h0
    exact Or.inl (by omega)

/-- A pop that finds a packet takes the slot under `out`, unless `out` is on the last slot. -/
theorem Cursors.popTarget_eq (h : Cursors q (n + 1) p none) (hown : Owned q p none)
    (hout : q.outIdx + 1 < q.rsz) : popTarget q = q.outIdx := by
  have hne : ¬ PopEmpty q := fun he => by
    have := (h.popEmpty_iff hown).mp he
    omega
  have hstart : popStart q = q.outIdx := if_neg (by omega)
  unfold popTarget
  rw [hstart]
  refine if_neg fun hl => ?_
  rw [← hstart] at hl
  -- the producer's slot is under `in`, and `in` is not `out` while something waits
  obtain ⟨hp, hzero⟩ := hown.popStart_locked hne hl
  have hin := (h.prod 0 hp).1
  exact hne (Or.inr (by omega))

/-! ### The calls

Each lemma says how many slots wait after the call and who holds what. The hypotheses of
`Cursors.popReset` and `Cursors.popTaken` are where a pop could leave the queue. -/

theorem Cursors.pushRefused (h : Cursors q n none w) (hown : Owned q none w) :
    Cursors (pushRefused q) n none w where
  count := h.count
  room := h.room
  cursor := (h.pushTarget_eq hown).trans h.cursor
  prod _ hi := nomatch hi
  work := h.work

theorem Cursors.pushAcquired (h : Cursors q n none w) (hown : Owned q none w)
    (hfull : ¬ PushFull q) : Cursors (pushAcquired q) n (some (pushTarget q)) w where
  count := h.count
  room := h.room
  cursor := (h.pushTarget_eq hown).trans h.cursor
  prod i hi := by
    cases hi
    refine ⟨rfl, ?_⟩
    show q.sz + 2 ≤ q.rsz
    rw [h.pushFull_iff hown] at hfull
    have := hown.three
    omega
  work := h.work

/-- Other contents of the slots leave the cursors in step. -/
theorem Cursors.setSlot (h : Cursors q n p w) (i : Nat) (r : RNG) :
    Cursors (q.setSlot i r) n p w where
  count := h.count
  room := h.room
  cursor := h.cursor
  prod := h.prod
  work := h.work

/-- The commit makes the slot under `in` the last one waiting. -/
theorem Cursors.commit (h : Cursors q n (some i) w) (hown : Owned q (some i) w) :
    Cursors (commit q i) (n + 1) none w := by
  obtain ⟨-, hroom⟩ := h.prod i rfl
  have hcount := h.count
  have hsz : (Lanes.commit q i).sz = q.sz + 1 := by
    rw [commit_sz, if_neg (by omega), inc32_of_lt (x := q.sz) (by omega) hown.bound]
  exact
    { count := by omega
      room := by
        rw [hsz, commit_rsz]
        exact hroom
      cursor := by
        rw [slotAfter_commit, slotAfter_succ hown.out_lt (by omega), ← h.cursor]
        exact commit_inIdx hown.in_lt hown.bound
      prod := fun _ hi => nomatch hi
      work := fun k hk => by
        rw [commit_outIdx]
        exact h.work k hk }

/-- A pop that finds nothing, also when it resets the ring. -/
theorem Cursors.popReset (h : Cursors q 0 p none) (hown : Owned q p none)
    (hprod : q.full = true → p = none ∨ p = some 0) :
    Cursors (popReset { q with sz := 0 }) 0 p none := by
  have hthree := hown.three
  have hsz : q.sz = 0 := h.count
  have hq : ({ q with sz := 0 } : Q) = q := by rw [← hsz]
  rw [hq]
  unfold Lanes.popReset
  split
  · rename_i hfull
    have hzero : slotAfter (resetRing q) 0 = 0 := slotAfter_zero (show 0 < q.rsz by omega)
    exact
      { count := rfl
        room := show 0 + 1 ≤ q.rsz by omega
        cursor := hzero.symm
        prod := fun i hi => by
          refine ⟨?_, show 0 + 2 ≤ q.rsz by omega⟩
          rcases hprod hfull with hnone | hslot
          · rw [hi] at hnone
            cases hnone
          · rw [hi] at hslot
            cases hslot
            rfl
        work := fun _ hi => nomatch hi }
  · exact h

theorem Cursors.popTaken (h : Cursors q (n + 1) p none) (hown : Owned q p none)
    (hout : q.outIdx + 1 < q.rsz) : Cursors (popTaken q) n p (some q.outIdx) := by
  have htgt := h.popTarget_eq hown hout
  have hcount := h.count
  exact
    { count := by
        show q.sz = n + if some q.outIdx = none then 0 else 1
        simp only [reduceCtorEq, if_true, if_false] at hcount ⊢
        omega
      room := h.room
      cursor := by
        rw [slotAfter_popTaken htgt]
        exact h.cursor
      prod := h.prod
      work := fun i hi => by
        cases hi
        show popTarget q + 1 = q.outIdx + 1
        rw [htgt] }

theorem Cursors.release (h : Cursors q n p (some i)) : Cursors (release q i) n p none := by
  have hcount := h.count
  simp only [reduceCtorEq, if_false] at hcount
  have hsz : (Lanes.release q i).sz = n := by
    simp [Lanes.release, Q.setLen, Q.unlockSlot, hcount]
  have hroom := h.room
  exact
    { count := hsz
      room := by
        show (Lanes.release q i).sz + 1 ≤ q.rsz
        omega
      cursor := h.cursor
      prod := fun k hk => by
        obtain ⟨hin, hr⟩ := h.prod k hk
        refine ⟨hin, ?_⟩
        show (Lanes.release q i).sz + 2 ≤ q.rsz
        omega
      work := fun _ hk => by cases hk }

end Cursors

end Lanes
