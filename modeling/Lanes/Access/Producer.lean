import Lanes.Access.Exclusion

/-!
# One access of the producer

By the register contents at each access of `push` and of the commit: the access is inside the ring,
it never lowers `sz`, and what the producer knows afterwards is what its next access needs.

`PushDone` is what has to be shown of one access. Most accesses load, and `PushDone.load` leaves
only the next `Fits` to show for them. `AccessInv.producer_next` goes through the places, and
`AccessInv.producer` makes the invariant again from its result, whichever access it was.
-/

namespace Lanes

/-! ## What an access leaves

Of the fields that both threads write, the producer raises `sz` and never stores `out`; the locks
move as `LockMove` allows. -/

section Producer

variable {s : Shared} {q' : Q} {p' : PushAt}

/-- What an access of the producer leaves for the worker. -/
structure PushDone (s : Shared) (q' : Q) (p' : PushAt) : Prop where
  rsz : q'.rsz = s.q.rsz
  outIdx : q'.outIdx = s.q.outIdx
  sz_ge : s.q.sz ≤ q'.sz
  sz_le : q'.sz ≤ s.q.rsz
  locks : LockMove s.q s.prod.hold q' p'.hold
  fits : p'.Fits q' s.work.owns
  cursor : ∀ took got, p' = .holding took got → q'.inIdx = got

/-- A load moves on to the next access. -/
theorem PushDone.load (h : AccessInv s) (hhold : p'.hold = s.prod.hold)
    (hfits : p'.Fits s.q s.work.owns)
    (hcursor : ∀ took got, p' = .holding took got → s.q.inIdx = got) : PushDone s s.q p' where
  rsz := rfl
  outIdx := rfl
  sz_ge := Nat.le_refl _
  sz_le := h.sz_le
  locks := by
    rw [hhold]
    exact .keep rfl fun _ _ => rfl
  fits := hfits
  cursor := hcursor

/-- A store of `in` keeps everything else. -/
theorem PushDone.storeIn (h : AccessInv s) {n : Nat} (hhold : p'.hold = s.prod.hold)
    (hfits : p'.Fits { s.q with inIdx := n } s.work.owns)
    (hcursor : ∀ took got, p' ≠ .holding took got) : PushDone s { s.q with inIdx := n } p' where
  rsz := rfl
  outIdx := rfl
  sz_ge := Nat.le_refl _
  sz_le := h.sz_le
  locks := by
    rw [hhold]
    exact .keep rfl fun _ _ => rfl
  fits := hfits
  cursor took got he := absurd he (hcursor took got)

/-! ## What the scan meets

A slot locked while the producer scans is the worker's, and that is never the last one of the ring.
So the step after it stays inside the ring, although the wrap stands before the step. -/

/-- A slot that the scan of `push` finds locked is the worker's. -/
theorem AccessInv.scan_locked (h : AccessInv s) {i : Nat} (hp : s.prod = .scanLock i)
    (hl : (s.q.R i).lock = true) : s.work.owns = some i := by
  have hf := h.prod
  rw [hp] at hf
  have := (h.locks.slots i hf.2).mp hl
  rw [hp] at this
  simpa [PushAt.hold, PushAt.owns, PopAt.hold] using this

/-- The slot of the worker is not the last one of the ring: `pop` wraps `out` in front of it. -/
theorem AccessInv.work_lt (h : AccessInv s) {i : Nat} (hw : s.work.owns = some i) :
    i + 1 < s.q.rsz := by
  have hf := h.work
  cases hs : s.work with
  | leave | prefetch | retOut =>
    rw [hs] at hw hf
    obtain rfl : s.q.outIdx = i := Option.some.inj (hf.1.symm.trans hw)
    exact hf.2
  | retStore =>
    rw [hs] at hw hf
    obtain rfl : s.q.outIdx = i := Option.some.inj (hf.1.symm.trans hw)
    exact hf.2.2
  | holding =>
    rw [hs] at hw hf
    obtain rfl := Option.some.inj hw
    exact hf.2
  | relTest | relUnlock =>
    rw [hs] at hw hf
    obtain rfl := Option.some.inj hw
    exact hf
  | relLoad | relStore =>
    rw [hs] at hw hf
    obtain rfl := Option.some.inj hw
    exact hf.1
  | _ =>
    rw [hs] at hw
    cases hw

/-! ## The accesses one by one

In the order of the source: the scan, the test for a full ring with its way out, the return
expression, then the commit. -/

/-- Each access of the producer is inside the ring and leaves what the next one needs. -/
theorem AccessInv.producer_next (h : AccessInv s) :
    ∃ q' p', s.prod.next s.q = .ok (q', p') ∧ PushDone s q' p' := by
  have hb := h.bound
  have h3 := h.three
  have hf := h.prod
  cases hp : s.prod with
  -- the scan; a locked slot is the worker's, so there is a slot behind it
  | idle =>
    rw [hp] at hf
    by_cases hl : s.q.lock = true
    · exact ⟨_, _, if_pos hl, .load h (by rw [hp]) hf fun _ _ he => by cases he⟩
    · refine ⟨_, _, if_neg hl,
        ⟨rfl, rfl, Nat.le_refl _, h.sz_le, ?_, hf, fun _ _ he => by cases he⟩⟩
      rw [hp]
      exact .enter (by simpa using hl) rfl fun _ _ => rfl
  | scanIn =>
    rw [hp] at hf
    exact ⟨_, _, rfl, .load h (by rw [hp]; rfl) ⟨rfl, hf⟩ fun _ _ he => by cases he⟩
  | scanLock i =>
    rw [hp] at hf
    obtain ⟨hin, hi⟩ := hf
    by_cases hl : (s.q.R i).lock = true
    · have hw := h.scan_locked hp hl
      refine ⟨_, .scanWrap, by simp only [PushAt.next, if_pos hi, if_pos hl],
        .load h (by rw [hp]; rfl) ⟨?_, fun k hk => ?_⟩ fun _ _ he => by cases he⟩
      · rw [hin]
        exact h.work_lt hw
      · rw [hw] at hk
        rw [hin, Option.some.inj hk]
    · refine ⟨s.q.lockSlot i, .wrapIn i, by simp only [PushAt.next, if_pos hi, if_neg hl],
        ⟨rfl, rfl, Nat.le_refl _, h.sz_le, ?_, ⟨hin, hi⟩, fun _ _ he => by cases he⟩⟩
      rw [hp]
      refine .take hi (by simpa using hl) rfl fun j _ => ?_
      by_cases hj : j = i <;> simp [Q.lockSlot, hj]
  | scanWrap =>
    rw [hp] at hf
    have hge : ¬ s.q.inIdx ≥ s.q.rsz := by have := hf.1; omega
    exact ⟨_, .scanNext, by simp only [PushAt.next, if_neg hge],
      .load h (by rw [hp]; rfl) hf fun _ _ he => by cases he⟩
  | scanZero =>
    -- the wrap inside the scan is never taken
    rw [hp] at hf
    exact hf.elim
  | scanNext =>
    rw [hp] at hf
    exact ⟨_, _, rfl, .load h (by rw [hp]; rfl) ⟨rfl, hf⟩ fun _ _ he => by cases he⟩
  | scanStore i =>
    rw [hp] at hf
    obtain ⟨-, hi, -⟩ := hf
    refine ⟨_, _, rfl, .storeIn h (by rw [hp]; rfl) ?_ fun _ _ he => by cases he⟩
    simp only [PushAt.Fits, inc32_of_lt (Nat.lt_of_succ_lt hi) hb]
    exact hi
  -- the test for a full ring, and the way out that gives the slot back
  | wrapIn took =>
    rw [hp] at hf
    have hge : ¬ s.q.inIdx ≥ s.q.rsz := by have := hf.1; have := hf.2; omega
    exact ⟨_, .fullSz took, by simp only [PushAt.next, if_neg hge],
      .load h (by rw [hp]; rfl) hf fun _ _ he => by cases he⟩
  | wrapZero took =>
    rw [hp] at hf
    exact hf.elim
  | fullSz took =>
    rw [hp] at hf
    by_cases hfull : s.q.sz ≥ dec32 s.q.rsz
    · exact ⟨_, .setFull took, by simp only [PushAt.next, if_pos hfull],
        .load h (by rw [hp]; rfl) hf fun _ _ he => by cases he⟩
    · exact ⟨_, .fullIn took, by simp only [PushAt.next, if_neg hfull],
        .load h (by rw [hp]; rfl) hf fun _ _ he => by cases he⟩
  | fullIn took =>
    rw [hp] at hf
    exact ⟨_, _, rfl, .load h (by rw [hp]; rfl) ⟨hf.1, hf.1, hf.2⟩ fun _ _ he => by cases he⟩
  | fullOut took i =>
    rw [hp] at hf
    by_cases hfull : i = dec32 s.q.outIdx
    · exact ⟨_, .setFull took, by simp only [PushAt.next, if_pos hfull],
        .load h (by rw [hp]; rfl) ⟨hf.1, hf.2.2⟩ fun _ _ he => by cases he⟩
    · exact ⟨_, .prefetch took, by simp only [PushAt.next, if_neg hfull],
        .load h (by rw [hp]; rfl) ⟨hf.1, hf.2.2⟩ fun _ _ he => by cases he⟩
  | setFull took =>
    rw [hp] at hf
    refine ⟨_, _, rfl, ⟨rfl, rfl, Nat.le_refl _, h.sz_le, ?_, hf, fun _ _ he => by cases he⟩⟩
    rw [hp]
    exact .keep rfl fun _ _ => rfl
  | giveIn took =>
    rw [hp] at hf
    exact ⟨_, _, rfl, .load h (by rw [hp]; rfl) ⟨hf.1, hf.1, hf.2⟩ fun _ _ he => by cases he⟩
  | giveBack took i =>
    rw [hp] at hf
    obtain ⟨hin, rfl, hi⟩ := hf
    refine ⟨_, _, if_pos hi,
      ⟨rfl, rfl, Nat.le_refl _, h.sz_le, ?_, hin ▸ hi, fun _ _ he => by cases he⟩⟩
    rw [hp]
    refine .give rfl fun j _ => ?_
    by_cases hj : j = i <;> simp [Q.unlockSlot, hj]
  | refused =>
    rw [hp] at hf
    refine ⟨_, _, rfl, ⟨rfl, rfl, Nat.le_refl _, h.sz_le, ?_, hf, fun _ _ he => by cases he⟩⟩
    rw [hp]
    exact .leave rfl fun _ _ => rfl
  -- the return expression
  | prefetch took =>
    rw [hp] at hf
    have hlt : s.q.inIdx < s.q.rsz := hf.1 ▸ hf.2
    exact ⟨_, _, if_pos hlt, .load h (by rw [hp]; rfl) hf fun _ _ he => by cases he⟩
  | leave took =>
    rw [hp] at hf
    refine ⟨_, _, rfl, ⟨rfl, rfl, Nat.le_refl _, h.sz_le, ?_, hf, fun _ _ he => by cases he⟩⟩
    rw [hp]
    exact .leave rfl fun _ _ => rfl
  | retIn took =>
    rw [hp] at hf
    obtain ⟨hin, hi⟩ := hf
    refine ⟨_, _, rfl, .load h ?_ ⟨hin, hin ▸ hi, hin ▸ hi⟩ fun _ _ he => by cases he; rfl⟩
    rw [hp, hin]
    rfl
  -- the commit; the count stored is at least the one that is there, since the worker only lowers it
  | holding took got =>
    rw [hp] at hf
    obtain ⟨rfl, hi, hin⟩ := hf
    refine ⟨_, _, if_pos hi,
      ⟨rfl, rfl, Nat.le_refl _, h.sz_le, ?_, hin, fun _ _ he => by cases he⟩⟩
    rw [hp]
    refine .give rfl fun j _ => ?_
    by_cases hj : j = got <;> simp [Q.unlockSlot, hj]
  | szTest =>
    rw [hp] at hf
    exact ⟨_, _, rfl, .load h (by rw [hp]; rfl) ⟨hf, of_decide_eq_true⟩ fun _ _ he => by cases he⟩
  | szLoad grow =>
    rw [hp] at hf
    refine ⟨_, _, rfl, .load h (by rw [hp]; rfl) ⟨hf.1, ?_⟩ fun _ _ he => by cases he⟩
    have hle := h.sz_le
    cases grow with
    | false => exact ⟨hle, Nat.le_refl _⟩
    | true =>
      have hlt := hf.2 rfl
      simp only [if_true, inc32_of_lt hlt hb]
      omega
  | szStore n =>
    rw [hp] at hf
    obtain ⟨hin, hn, hge⟩ := hf
    refine ⟨_, _, rfl, ⟨rfl, rfl, hge, hn, ?_, hin, fun _ _ he => by cases he⟩⟩
    rw [hp]
    exact .keep rfl fun _ _ => rfl
  | inAdd =>
    rw [hp] at hf
    refine ⟨_, _, rfl, .storeIn h (by rw [hp]; rfl) ?_ fun _ _ he => by cases he⟩
    simp only [PushAt.Fits, inc32_of_lt hf hb]
    exact hf
  | inTest =>
    rw [hp] at hf
    have hle : s.q.inIdx ≤ s.q.rsz := hf
    by_cases hge : s.q.inIdx ≥ s.q.rsz
    · exact ⟨_, .inLoad, by simp only [PushAt.next, if_pos hge],
        .load h (by rw [hp]; rfl) (Nat.le_antisymm hle hge) fun _ _ he => by cases he⟩
    · exact ⟨_, .idle, by simp only [PushAt.next, if_neg hge],
        .load h (by rw [hp]; rfl) (Nat.lt_of_not_le hge) fun _ _ he => by cases he⟩
  | inLoad =>
    rw [hp] at hf
    exact ⟨_, _, rfl, .load h (by rw [hp]; rfl) ⟨hf, hf⟩ fun _ _ he => by cases he⟩
  | inSub n =>
    rw [hp] at hf
    obtain ⟨hin, rfl⟩ := hf
    refine ⟨_, _, rfl, .storeIn h (by rw [hp]; rfl) ?_ fun _ _ he => by cases he⟩
    have hzero : sub32 s.q.inIdx s.q.rsz = 0 := by
      unfold sub32
      omega
    simp only [PushAt.Fits, hzero]
    omega

/-- What an access of the producer leaves is the invariant again: the worker's part is stable under
it, unless `reset_ring` runs. -/
theorem AccessInv.producer (h : AccessInv s) (hr : s.work.resetting = false)
    (hdone : PushDone s q' p') : AccessInv { s with q := q', prod := p' } := by
  have hrsz := hdone.rsz
  have hout := hdone.outIdx
  exact
    { safe := h.safe
      three := hrsz ▸ h.three
      bound := hrsz ▸ h.bound
      sz_le := hrsz ▸ hdone.sz_le
      out_lt := by
        rw [hout, hrsz]
        exact h.out_lt
      locks := h.locks.move hrsz hdone.locks
      prod := hdone.fits
      work := h.work.stable hr hrsz hout hdone.sz_ge fun hw =>
        h.locks.slot_mono hw hdone.locks
      cursor := fun took got hp _ => .inl (hdone.cursor took got hp)
      alone := fun hres => by
        rw [hr] at hres
        cases hres }

end Producer

end Lanes
