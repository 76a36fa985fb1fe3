import Mathlib.Tactic.ByContra
import Lanes.Ring.Init

/-!
# Who owns which slot

`Owned q p w` ties the cursors and the slot locks of a ring to the slot `p` of its producer and
the slot `w` of its worker. It is the invariant under every result about runs of one ring: it
holds of the ring that `init_ring_buffer` builds and each operation of `ring.c` and `workers.c`
keeps it, `reset_ring` included.

## The architecture

* **Closed forms.** With one owner on each side the scan of `push` meets at most the slot of the
  worker, and the scan of `pop` at most the slot of the producer. So each scan tries its first slot
  and then the next (`Owned.pushScan`, `Owned.popScan`), the loops disappear, and each call is one
  `if` between a refusal and the slot acquired (`Owned.pushLocked`, `Owned.popLocked`).
* **Preservation.** For each outcome of each call, `Owned` with the owners that it leaves behind:
  `Owned.pushRefused`, `Owned.pushAcquired`, `Owned.popReset`, `Owned.popAcquired`, and after the
  call `Owned.popReturn`, `Owned.commit` and `Owned.release`.
-/

namespace Lanes

/-! ## Projections of the slot updates

A lock taken or dropped changes one slot and no cursor. -/

section Updates

variable (q : Q) (i j : Nat) (n : Int)

@[simp] theorem Q.lockSlot_R :
    (q.lockSlot i).R = Function.update q.R i { q.R i with lock := true } := rfl
@[simp] theorem Q.lockSlot_rsz : (q.lockSlot i).rsz = q.rsz := rfl
@[simp] theorem Q.lockSlot_inIdx : (q.lockSlot i).inIdx = q.inIdx := rfl
@[simp] theorem Q.lockSlot_outIdx : (q.lockSlot i).outIdx = q.outIdx := rfl
@[simp] theorem Q.lockSlot_sz : (q.lockSlot i).sz = q.sz := rfl

/-- Unlocking a slot right after it was locked undoes the lock of a free slot. -/
theorem Q.unlockSlot_lockSlot (h : (q.R i).lock = false) : (q.lockSlot i).unlockSlot i = q := by
  have hR : Function.update q.R i { q.R i with lock := false } = q.R := by
    rw [← h]
    exact Function.update_eq_self i q.R
  simp only [Q.unlockSlot, Q.lockSlot_R, Function.update_self, Function.update_idem]
  rw [hR]
  rfl

end Updates

/-! ## The invariant

A slot is locked exactly when a thread holds it. The worker's slot is never the last one of the
ring, since `pop` starts its search at slot 0 when `out` stands there; so the slot behind it, which
`pop` reads for its return value, is inside the array. -/

/-- Ring `q` with producer slot `p` and worker slot `w`: exactly these two slots are locked. The
producer's slot is the one under `in`, unless `reset_ring` ran since it was taken; the worker's
slot is never the last one of the ring. -/
structure Owned (q : Q) (p w : Option Nat) : Prop where
  three : 3 ≤ q.rsz
  bound : q.rsz < 2 ^ 32
  free : q.lock = false
  in_lt : q.inIdx < q.rsz
  out_lt : q.outIdx < q.rsz
  locked_iff : ∀ i < q.rsz, (q.R i).lock = true ↔ p = some i ∨ w = some i
  prod_lt : ∀ i, p = some i → i < q.rsz
  prod_cursor : ∀ i, p = some i →
    q.inIdx = i ∨ (q.inIdx = 0 ∧ q.outIdx = 0 ∧ q.sz = 0 ∧ w = none)
  work_lt : ∀ i, w = some i → i + 1 < q.rsz
  apart : ∀ i, p = some i → w ≠ some i

/-- The empty ring with every slot unlocked. -/
structure Q.Start (q : Q) : Prop where
  three : 3 ≤ q.rsz
  bound : q.rsz < 2 ^ 32
  inIdx : q.inIdx = 0
  outIdx : q.outIdx = 0
  sz : q.sz = 0
  free : q.lock = false
  unlocked : ∀ i < q.rsz, (q.R i).lock = false

theorem Q.Start.owned {q : Q} (h : q.Start) : Owned q none none where
  three := h.three
  bound := h.bound
  free := h.free
  in_lt := by rw [h.inIdx]; have := h.three; omega
  out_lt := by rw [h.outIdx]; have := h.three; omega
  locked_iff i hi := by simp [h.unlocked i hi]
  prod_lt i hi := by simp at hi
  prod_cursor i hi := by simp at hi
  work_lt i hi := by simp at hi
  apart i hi := by simp at hi

theorem emptyRing_start {n mtu : Nat} (h3 : 3 ≤ n) (hb : n < 2 ^ 32) : (emptyRing n mtu).Start where
  three := h3
  bound := hb
  inIdx := rfl
  outIdx := rfl
  sz := rfl
  free := rfl
  unlocked _ _ := rfl

variable {q q' : Q} {p w : Option Nat} {i k : Nat}

/-! ## `push`

The producer holds nothing when it calls `push`, so the only lock that the scan can meet is the
one of the worker. `pushTarget` is the slot where the scan stops; it exists because the ring has
three slots. -/

/-- The slot the scan of `push` stops at when only the worker's slot is locked. -/
def pushTarget (q : Q) : Nat := if (q.R q.inIdx).lock then q.inIdx + 1 else q.inIdx

theorem Owned.pushTarget_lt (h : Owned q none w) : pushTarget q < q.rsz := by
  unfold pushTarget
  split
  · rename_i hl
    have hw : w = some q.inIdx := by simpa [h.locked_iff _ h.in_lt] using hl
    exact h.work_lt _ hw
  · exact h.in_lt

theorem Owned.pushTarget_free (h : Owned q none w) : (q.R (pushTarget q)).lock = false := by
  have hlt := h.pushTarget_lt
  unfold pushTarget at hlt ⊢
  split
  · rename_i hl
    have hw : w = some q.inIdx := by simpa [h.locked_iff _ h.in_lt] using hl
    rw [if_pos hl] at hlt
    -- the slot under `in` is the worker's, so the one behind it is nobody's
    rw [← Bool.not_eq_true, h.locked_iff _ hlt, hw]
    simp
  · rename_i hl
    simpa using hl

theorem Owned.pushTarget_ne (h : Owned q none w) (hw : w = some i) : pushTarget q ≠ i := by
  intro he
  have hi : i < q.rsz := by have := h.work_lt i hw; omega
  have hl : (q.R i).lock = true := (h.locked_iff i hi).mpr (Or.inr hw)
  have hf := h.pushTarget_free
  rw [he, hl] at hf
  cases hf

/-- A free slot under `in` ends the scan at once. -/
theorem pushScan_free {n : Nat} (hlt : q.inIdx < q.rsz) (hfree : (q.R q.inIdx).lock = false) :
    pushScan (n + 1) q = .ok (q.lockSlot q.inIdx) := by
  simp [pushScan, hlt, hfree]

/-- A locked slot below the last one is stepped over. -/
theorem pushScan_locked {n : Nat} (hlt : q.inIdx + 1 < q.rsz) (hb : q.rsz < 2 ^ 32)
    (hl : (q.R q.inIdx).lock = true) :
    pushScan (n + 1) q = pushScan n { q with inIdx := q.inIdx + 1 } := by
  have h1 : q.inIdx < q.rsz := by omega
  have h2 : ¬ q.inIdx ≥ q.rsz := by omega
  simp only [pushScan, h1, hl, h2, if_true, if_false, inc32_of_lt h1 hb]

theorem Owned.pushScan (h : Owned q none w) :
    pushScan (q.rsz + 1) { q with lock := true } =
      .ok ({ q with lock := true, inIdx := pushTarget q }.lockSlot (pushTarget q)) := by
  have hlt := h.pushTarget_lt
  have hfree := h.pushTarget_free
  have h3 := h.three
  obtain ⟨n, hn⟩ : ∃ n, q.rsz + 1 = n + 2 := ⟨q.rsz - 1, by omega⟩
  rw [hn]
  unfold pushTarget at hlt hfree ⊢
  by_cases hl : (q.R q.inIdx).lock = true
  · rw [if_pos hl] at hlt hfree
    simp only [if_pos hl]
    rw [pushScan_locked (q := { q with lock := true }) hlt h.bound hl]
    exact pushScan_free (q := { q with lock := true, inIdx := q.inIdx + 1 }) hlt hfree
  · rw [if_neg hl] at hlt hfree
    simp only [if_neg hl]
    exact pushScan_free (q := { q with lock := true }) hlt hfree

/-- `push` refuses: the ring counts as full. -/
def PushFull (q : Q) : Prop := q.rsz - 1 ≤ q.sz ∨ pushTarget q = dec32 q.outIdx

instance (q : Q) : Decidable (PushFull q) := inferInstanceAs (Decidable (_ ∨ _))

/-- `push` after a refusal: the cursor stays where the scan moved it. -/
def pushRefused (q : Q) : Q := { q with inIdx := pushTarget q, full := true }

/-- `push` after it took a slot. -/
def pushAcquired (q : Q) : Q := { q with inIdx := pushTarget q }.lockSlot (pushTarget q)

/-- The locked part of `push` as one `if`: the loop is gone, and with it the guard against a scan
that runs off the ring. -/
theorem Owned.pushLocked (h : Owned q none w) :
    pushLocked q =
      .ok (if PushFull q then (pushRefused q, .refused)
        else (pushAcquired q, .acquired (pushTarget q))) := by
  have hlt := h.pushTarget_lt
  have hnot : ¬ pushTarget q ≥ q.rsz := by omega
  have hdec : dec32 q.rsz = q.rsz - 1 := dec32_of_pos (by omega)
  have hfree := h.free
  unfold Lanes.pushLocked
  simp only [hfree, Bool.false_eq_true, if_false, h.pushScan]
  simp only [bind, Except.bind, Q.lockSlot_inIdx, Q.lockSlot_rsz, hnot, if_false, hdec,
    Q.lockSlot_sz, Q.lockSlot_outIdx]
  by_cases hfull : PushFull q
  · have hfull' : q.sz ≥ q.rsz - 1 ∨ pushTarget q = dec32 q.outIdx := hfull
    rw [if_pos hfull, if_pos hfull']
    have hun := Q.unlockSlot_lockSlot { q with inIdx := pushTarget q, full := true } (pushTarget q)
      h.pushTarget_free
    refine congrArg (fun q' => Except.ok (q', Left.refused)) ?_
    calc _ = ({ q with inIdx := pushTarget q, full := true }.lockSlot (pushTarget q)).unlockSlot
            (pushTarget q) := by simp [Q.lockSlot, Q.unlockSlot, hfree]
      _ = pushRefused q := hun
  · have hfull' : ¬ (q.sz ≥ q.rsz - 1 ∨ pushTarget q = dec32 q.outIdx) := hfull
    rw [if_neg hfull, if_neg hfull']
    simp [pushAcquired, Q.lockSlot, hfree]

/-- A refused `push` moves `in` and locks nothing. -/
theorem Owned.pushRefused (h : Owned q none w) : Owned (pushRefused q) none w :=
  { h with
    in_lt := h.pushTarget_lt
    prod_cursor := by simp }

/-- The slot that `push` takes is free, so it is not the worker's, and it is the one under `in`. -/
theorem Owned.pushAcquired (h : Owned q none w) :
    Owned (pushAcquired q) (some (pushTarget q)) w where
  three := h.three
  bound := h.bound
  free := h.free
  in_lt := h.pushTarget_lt
  out_lt := h.out_lt
  locked_iff i hi := by
    have hi' : i < q.rsz := hi
    by_cases he : i = pushTarget q
    · subst he
      simp [Lanes.pushAcquired]
    · have := h.locked_iff i hi'
      simp only [Lanes.pushAcquired, Q.lockSlot_R, Function.update_of_ne he, this]
      simp [Ne.symm he]
  prod_lt i hi := by
    cases hi
    exact h.pushTarget_lt
  prod_cursor i hi := by
    cases hi
    exact Or.inl rfl
  work_lt := h.work_lt
  apart i hi hw := by
    cases hi
    exact h.pushTarget_ne hw rfl

/-! ## `pop`

The same from the other side: the worker holds nothing, and the only lock that the scan can meet
is the one of the producer. Where the ring counts no packet, or the cursors are equal, `pop` takes
no slot and may reset the ring. -/

/-- `pop` finds nothing: the test made under `q->lock`. -/
def PopEmpty (q : Q) : Prop := q.sz < 1 ∨ q.inIdx = q.outIdx

instance (q : Q) : Decidable (PopEmpty q) := inferInstanceAs (Decidable (_ ∨ _))

/-- The cursor the scan of `pop` starts from. -/
def popStart (q : Q) : Nat := if q.outIdx ≥ q.rsz - 1 then 0 else q.outIdx

/-- The slot the scan of `pop` stops at when only the producer's slot is locked. -/
def popTarget (q : Q) : Nat := if (q.R (popStart q)).lock then popStart q + 1 else popStart q

theorem Owned.popStart_lt (h : Owned q p w) : popStart q + 1 < q.rsz := by
  have h3 := h.three
  have hout := h.out_lt
  unfold popStart
  split <;> omega

/-- While packets are queued `pop` meets the producer's slot only at the wrap. -/
theorem Owned.popStart_locked (h : Owned q p none) (hne : ¬ PopEmpty q)
    (hl : (q.R (popStart q)).lock = true) : p = some 0 ∧ popStart q = 0 := by
  have hlt : popStart q < q.rsz := by have := h.popStart_lt; omega
  have hp : p = some (popStart q) := by simpa [h.locked_iff _ hlt] using hl
  have hin : q.inIdx = popStart q := by
    rcases h.prod_cursor _ hp with hin | ⟨-, -, hsz, -⟩
    · exact hin
    · exact absurd (Or.inl (by omega)) hne
  -- without the wrap the scan starts at `out`, and `in` is elsewhere
  have hwrap : q.outIdx ≥ q.rsz - 1 := by
    by_contra hnw
    refine hne (Or.inr ?_)
    rw [hin, popStart, if_neg hnw]
  have hzero : popStart q = 0 := if_pos hwrap
  exact ⟨by rw [hp, hzero], hzero⟩

theorem Owned.popTarget_lt (h : Owned q p none) (hne : ¬ PopEmpty q) :
    popTarget q + 1 < q.rsz := by
  unfold popTarget
  split
  · rename_i hl
    obtain ⟨-, hzero⟩ := h.popStart_locked hne hl
    have h3 := h.three
    omega
  · exact h.popStart_lt

theorem Owned.popTarget_free (h : Owned q p none) (hne : ¬ PopEmpty q) :
    (q.R (popTarget q)).lock = false := by
  have hlt := h.popTarget_lt hne
  unfold popTarget at hlt ⊢
  split
  · rename_i hl
    obtain ⟨hp, hzero⟩ := h.popStart_locked hne hl
    have h3 := h.three
    -- the producer is on slot 0 and nobody holds slot 1
    rw [hzero, ← Bool.not_eq_true, h.locked_iff _ (by omega), hp]
    simp
  · rename_i hl
    simpa using hl

theorem Owned.popTarget_ne (h : Owned q p none) (hne : ¬ PopEmpty q) (hp : p = some i) :
    popTarget q ≠ i := by
  intro he
  have hl : (q.R i).lock = true := (h.locked_iff i (h.prod_lt i hp)).mpr (Or.inl hp)
  have hf := h.popTarget_free hne
  rw [he, hl] at hf
  cases hf

theorem popScan_free {n : Nat} (hsz : 0 < q.sz) (hlt : q.outIdx < q.rsz)
    (hfree : (q.R q.outIdx).lock = false) :
    popScan (n + 1) q = .ok (q.lockSlot q.outIdx) := by
  simp [popScan, hlt, hfree, hsz]

theorem popScan_locked {n : Nat} (hsz : 0 < q.sz) (hlt : q.outIdx + 1 < q.rsz)
    (hb : q.rsz < 2 ^ 32) (hl : (q.R q.outIdx).lock = true) :
    popScan (n + 1) q = popScan n { q with outIdx := q.outIdx + 1 } := by
  have h1 : q.outIdx < q.rsz := by omega
  have hdec : dec32 q.rsz = q.rsz - 1 := dec32_of_pos (by omega)
  have h2 : ¬ q.outIdx ≥ q.rsz - 1 := by omega
  simp only [popScan, gt_iff_lt, hsz, h1, hl, hdec, h2, if_true, if_false, inc32_of_lt h1 hb]

theorem Owned.popScan (h : Owned q p none) (hne : ¬ PopEmpty q) :
    popScan (q.rsz + 1) { q with lock := true, outIdx := popStart q } =
      .ok ({ q with lock := true, outIdx := popTarget q }.lockSlot (popTarget q)) := by
  have hlt := h.popTarget_lt hne
  have hfree := h.popTarget_free hne
  have h3 := h.three
  have hsz : 0 < q.sz := by
    by_contra h0
    exact hne (Or.inl (by omega))
  obtain ⟨n, hn⟩ : ∃ n, q.rsz + 1 = n + 2 := ⟨q.rsz - 1, by omega⟩
  rw [hn]
  have hst := h.popStart_lt
  unfold popTarget at hlt hfree ⊢
  by_cases hl : (q.R (popStart q)).lock = true
  · rw [if_pos hl] at hlt hfree
    simp only [if_pos hl]
    rw [popScan_locked (q := { q with lock := true, outIdx := popStart q }) hsz hst h.bound hl]
    exact popScan_free (q := { q with lock := true, outIdx := popStart q + 1 }) hsz
      (show popStart q + 1 < q.rsz by omega) hfree
  · rw [if_neg hl] at hlt hfree
    simp only [if_neg hl]
    exact popScan_free (q := { q with lock := true, outIdx := popStart q }) hsz
      (show popStart q < q.rsz by omega) hfree

/-- `pop` after it took a slot, before `q->out++`. -/
def popAcquired (q : Q) : Q := { q with outIdx := popTarget q }.lockSlot (popTarget q)

theorem Owned.popLocked (h : Owned q p none) :
    popLocked q =
      .ok (if PopEmpty q then ({ q with sz := 0 }, .refused)
        else (popAcquired q, .acquired (popTarget q))) := by
  have hfree := h.free
  have hdec : dec32 q.rsz = q.rsz - 1 :=
    dec32_of_pos (by have := h.three; omega)
  unfold Lanes.popLocked
  simp only [hfree, Bool.false_eq_true, if_false]
  by_cases hne : PopEmpty q
  · have hne' : q.sz < 1 ∨ q.inIdx = q.outIdx := hne
    rw [if_pos hne, if_pos hne']
  · have hne' : ¬ (q.sz < 1 ∨ q.inIdx = q.outIdx) := hne
    rw [if_neg hne, if_neg hne', hdec]
    have hstart : (if q.outIdx ≥ q.rsz - 1 then { q with lock := true, outIdx := 0 }
        else { q with lock := true }) = { q with lock := true, outIdx := popStart q } := by
      unfold popStart
      split <;> rfl
    simp only [hstart, h.popScan hne]
    simp only [bind, Except.bind, popAcquired, Q.lockSlot, hfree]

/-- A `pop` that finds the ring empty first clears `sz`. -/
theorem Owned.popRefused (h : Owned q p none) : Owned { q with sz := 0 } p none :=
  { h with
    prod_cursor := fun i hi => by
      rcases h.prod_cursor i hi with hin | ⟨hin, hout, -, hw⟩
      · exact Or.inl hin
      · exact Or.inr ⟨hin, hout, rfl, hw⟩ }

/-- `reset_ring` touches no slot lock, and afterwards the cursors do not depend on the past. -/
theorem Owned.resetRing (h : Owned q p none) : Owned (resetRing q) p none where
  three := h.three
  bound := h.bound
  free := rfl
  in_lt := by have := h.three; show 0 < q.rsz; omega
  out_lt := by have := h.three; show 0 < q.rsz; omega
  locked_iff i hi := by
    have hi' : i < q.rsz := hi
    simpa [Lanes.resetRing, hi'] using h.locked_iff i hi'
  prod_lt := h.prod_lt
  prod_cursor i _ := Or.inr ⟨rfl, rfl, rfl, rfl⟩
  work_lt i hi := by simp at hi
  apart i _ hi := by simp at hi

theorem Owned.popReset (h : Owned q p none) : Owned (popReset q) p none := by
  unfold Lanes.popReset
  split
  · exact h.resetRing
  · exact h

theorem Owned.popAcquired (h : Owned q p none) (hne : ¬ PopEmpty q) :
    Owned (popAcquired q) p (some (popTarget q)) where
  three := h.three
  bound := h.bound
  free := h.free
  in_lt := h.in_lt
  out_lt := by
    have := h.popTarget_lt hne
    show popTarget q < q.rsz
    omega
  locked_iff i hi := by
    have hi' : i < q.rsz := hi
    by_cases he : i = popTarget q
    · subst he
      simp [Lanes.popAcquired]
    · have := h.locked_iff i hi'
      simp only [Lanes.popAcquired, Q.lockSlot_R, Function.update_of_ne he, this]
      simp [Ne.symm he]
  prod_lt := h.prod_lt
  prod_cursor i hi := by
    -- after a reset the producer may be off `in`, but then nothing is queued
    rcases h.prod_cursor i hi with hin | ⟨-, -, hsz, -⟩
    · exact Or.inl hin
    · exact absurd (Or.inl (by omega)) hne
  work_lt i hi := by
    cases hi
    exact h.popTarget_lt hne
  apart i hi hw := by
    cases hw
    exact h.popTarget_ne hne hi rfl

/-- The worker's step `R[q->out++]` returns the slot under `out` and stays inside the ring. -/
theorem Owned.popReturn (h : Owned q p (some q.outIdx)) :
    popReturn q = .ok ({ q with outIdx := q.outIdx + 1 }, q.outIdx) := by
  have hlt := h.work_lt _ rfl
  have hinc : inc32 q.outIdx = q.outIdx + 1 := inc32_of_lt h.out_lt h.bound
  simp [Lanes.popReturn, hinc, hlt]

theorem Owned.outSucc (h : Owned q p (some k)) (hk : q.outIdx = k) :
    Owned { q with outIdx := q.outIdx + 1 } p (some k) :=
  { h with
    out_lt := by
      have := h.work_lt k rfl
      show q.outIdx + 1 < q.rsz
      omega
    prod_cursor := fun i hi => by
      rcases h.prod_cursor i hi with hin | ⟨-, -, -, hw⟩
      · exact Or.inl hin
      · cases hw }

/-! ## Commit and release

The two callers of `workers.c` give their slot back. Both write the lock, the commit also `in` and
`sz`, the release `sz` alone. -/

theorem commit_R : (commit q i).R = Function.update q.R i { q.R i with lock := false } := by
  simp only [commit]
  split <;> rfl

theorem commit_rsz : (commit q i).rsz = q.rsz := by
  simp only [commit]
  split <;> rfl

theorem commit_lock : (commit q i).lock = q.lock := by
  simp only [commit]
  split <;> rfl

theorem commit_outIdx : (commit q i).outIdx = q.outIdx := by
  simp only [commit]
  split <;> rfl

theorem commit_sz : (commit q i).sz = if q.sz ≥ q.rsz then q.sz else inc32 q.sz := by
  simp only [commit]
  split <;> rfl

/-- The commit advances `in` and wraps it at `rsz`. -/
theorem commit_inIdx (hin : q.inIdx < q.rsz) (hb : q.rsz < 2 ^ 32) :
    (commit q i).inIdx = if q.inIdx + 1 = q.rsz then 0 else q.inIdx + 1 := by
  have hinc : inc32 q.inIdx = q.inIdx + 1 := inc32_of_lt hin hb
  unfold commit
  simp only [Q.unlockSlot, hinc]
  by_cases hw : q.inIdx + 1 = q.rsz
  · simp [hw]
  · have : ¬ q.inIdx + 1 ≥ q.rsz := by omega
    simp [hw, this]

/-- `commit` unlocks the slot that it is given; after a reset this need not be the one under
`in`. -/
theorem Owned.commit (h : Owned q (some i) w) : Owned (commit q i) none w where
  three := by rw [commit_rsz]; exact h.three
  bound := by rw [commit_rsz]; exact h.bound
  free := by rw [commit_lock]; exact h.free
  in_lt := by
    rw [commit_inIdx h.in_lt h.bound, commit_rsz]
    have := h.in_lt
    split <;> omega
  out_lt := by rw [commit_outIdx, commit_rsz]; exact h.out_lt
  locked_iff k hk := by
    rw [commit_rsz] at hk
    rw [commit_R]
    by_cases he : k = i
    · subst he
      simpa using h.apart k rfl
    · have := h.locked_iff k hk
      simp only [Function.update_of_ne he, this]
      simp [Ne.symm he]
  prod_lt k hk := by simp at hk
  prod_cursor k hk := by simp at hk
  work_lt k hk := by rw [commit_rsz]; exact h.work_lt k hk
  apart k hk := by simp at hk

theorem release_R :
    (release q i).R = Function.update q.R i { q.R i with len := -1, lock := false } := by
  simp [release, Q.setLen, Q.unlockSlot]

/-- The worker gives its slot back; the cursors stay where `pop` left them. -/
theorem Owned.release (h : Owned q p (some k)) : Owned (release q k) p none where
  three := h.three
  bound := h.bound
  free := h.free
  in_lt := h.in_lt
  out_lt := h.out_lt
  locked_iff i hi := by
    have hi' : i < q.rsz := hi
    rw [release_R]
    by_cases he : i = k
    · subst he
      have : p ≠ some i := fun hp => h.apart i hp rfl
      simp [this]
    · have := h.locked_iff i hi'
      simp only [Function.update_of_ne he, this]
      simp [Ne.symm he]
  prod_lt := h.prod_lt
  prod_cursor i hi := by
    rcases h.prod_cursor i hi with hin | ⟨-, -, -, hw⟩
    · exact Or.inl hin
    · cases hw
  work_lt i hi := by simp at hi
  apart i _ hi := by simp at hi

end Lanes
