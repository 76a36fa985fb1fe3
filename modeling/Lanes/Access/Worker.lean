import Lanes.Access.Producer

/-!
# One access of the worker

The same for `pop`, for `reset_ring` and for the release: none of them raises `sz`. Behind a packet
found, a slot that the producer holds is the one under `in`, so the scan of `pop` meets it at slot 0
or not at all.

`PopDone` is what has to be shown of one access. There are four kinds of them, each with its lemma:
an access that stores no cursor (`PopDone.still`, and `PopDone.load` for a load), one behind a
packet found (`PopDone.found`), one of `reset_ring` (`PopDone.reset`). The last access of
`reset_ring` is of no kind and is written out.
-/

namespace Lanes

/-! ## What an access leaves

The worker lowers `sz`, and stores `in` only inside `reset_ring`, while the producer is outside its
calls. `CursorOn` is what a producer that holds a slot then still has. -/

section Worker

variable {s : Shared} {q' : Q} {w' : PopAt}

/-- What an access of the worker leaves for the producer. -/
structure PopDone (s : Shared) (q' : Q) (w' : PopAt) : Prop where
  rsz : q'.rsz = s.q.rsz
  out_lt : q'.outIdx < s.q.rsz
  sz : q'.sz ≤ s.q.sz
  inIdx : q'.inIdx = s.q.inIdx ∨ (q'.inIdx = 0 ∧ s.prod.outside = true)
  locks : LockMove s.q s.work.hold q' w'.hold
  fits : w'.Fits q' s.prod.owns
  cursor : ∀ took got, s.prod = .holding took got → w'.resetting = false → CursorOn q' w' got
  alone : w'.resetting = true → s.prod.outside = true

/-- A slot held by the producer while the worker looks for a packet is the one under `in`. -/
theorem AccessInv.prod_under (h : AccessInv s) (hw : s.work.inside = true)
    (hd : s.work.drained = false) {k : Nat} (hk : s.prod.owns = some k) : k = s.q.inIdx := by
  have hone : s.prod.inside = false := h.locks.symm.one hw
  have hf := h.prod
  cases hp : s.prod with
  | retIn took =>
    rw [hp] at hf hk
    cases hk
    exact hf.1.symm
  | holding took got =>
    rw [hp] at hk
    cases hk
    have hr : s.work.resetting = false := by
      revert hw
      cases s.work <;> simp [PopAt.inside, PopAt.resetting]
    rcases h.cursor took k hp hr with hin | ⟨-, -, -, hdrained⟩
    · exact hin.symm
    · rw [hd] at hdrained
      cases hdrained
  | idle | szTest | szLoad | szStore | inAdd | inTest | inLoad | inSub =>
    rw [hp] at hk
    cases hk
  | _ =>
    rw [hp] at hone
    cases hone

/-- An access outside `reset_ring` that stores no cursor. -/
theorem PopDone.still (h : AccessInv s) (hrsz : q'.rsz = s.q.rsz) (hout : q'.outIdx = s.q.outIdx)
    (hsz : q'.sz ≤ s.q.sz) (hin : q'.inIdx = s.q.inIdx)
    (hlocks : LockMove s.q s.work.hold q' w'.hold) (hfits : w'.Fits q' s.prod.owns)
    (hr : s.work.resetting = false) (hr' : w'.resetting = false)
    (hd : s.q.sz = 0 → s.work.drained = true → w'.drained = true) : PopDone s q' w' where
  rsz := hrsz
  out_lt := hout ▸ h.out_lt
  sz := hsz
  inIdx := .inl hin
  locks := hlocks
  fits := hfits
  cursor took got hp _ := by
    rcases h.cursor took got hp hr with hon | ⟨hzin, hzout, hzero, hdrained⟩
    · exact .inl (hin.trans hon)
    · exact .inr ⟨hin.trans hzin, hout.trans hzout, by omega, hd hzero hdrained⟩
  alone hres := by
    rw [hr'] at hres
    cases hres

/-- A load outside `reset_ring`. -/
theorem PopDone.load (h : AccessInv s) (hhold : w'.hold = s.work.hold)
    (hfits : w'.Fits s.q s.prod.owns) (hr : s.work.resetting = false) (hr' : w'.resetting = false)
    (hd : s.q.sz = 0 → s.work.drained = true → w'.drained = true) : PopDone s s.q w' :=
  .still h rfl rfl (Nat.le_refl _) rfl (by rw [hhold]; exact .keep rfl fun _ _ => rfl) hfits hr hr'
    hd

/-- An access of a worker that has found a packet keeps `in`. -/
theorem PopDone.found (h : AccessInv s) (hrsz : q'.rsz = s.q.rsz) (hout : q'.outIdx < s.q.rsz)
    (hsz : q'.sz ≤ s.q.sz) (hin : q'.inIdx = s.q.inIdx)
    (hlocks : LockMove s.q s.work.hold q' w'.hold) (hfits : w'.Fits q' s.prod.owns)
    (hr : s.work.resetting = false) (hr' : w'.resetting = false) (hd : s.work.drained = false) :
    PopDone s q' w' where
  rsz := hrsz
  out_lt := hout
  sz := hsz
  inIdx := .inl hin
  locks := hlocks
  fits := hfits
  cursor took got hp _ := by
    rcases h.cursor took got hp hr with hon | ⟨-, -, -, hdrained⟩
    · exact .inl (hin.trans hon)
    · rw [hd] at hdrained
      cases hdrained
  alone hres := by
    rw [hr'] at hres
    cases hres

/-- An access of `reset_ring`, up to its last one. -/
theorem PopDone.reset (hrsz : q'.rsz = s.q.rsz) (hout : q'.outIdx < s.q.rsz)
    (hsz : q'.sz ≤ s.q.sz) (hin : q'.inIdx = 0) (halone : s.prod.outside = true)
    (hlocks : LockMove s.q s.work.hold q' w'.hold) (hfits : w'.Fits q' s.prod.owns)
    (hr' : w'.resetting = true) : PopDone s q' w' where
  rsz := hrsz
  out_lt := hout
  sz := hsz
  inIdx := .inr ⟨hin, halone⟩
  locks := hlocks
  fits := hfits
  cursor _ _ _ hres := by
    rw [hr'] at hres
    cases hres
  alone _ := halone

/-! ## The accesses one by one

In the order of the source: the test for an empty ring with the reset, the scan, the return
expression, then the release. -/

/-- Each access of the worker is inside the ring and leaves what the next one needs. -/
theorem AccessInv.worker_next (h : AccessInv s) (halone : ResetAlone s .worker) :
    ∃ q' w', s.work.next s.q = .ok (q', w') ∧ PopDone s q' w' := by
  have hb := h.bound
  have h3 := h.three
  have hle := h.sz_le
  have hout := h.out_lt
  have hf := h.work
  have hunder := @AccessInv.prod_under s h
  have hself := h.alone
  cases hw : s.work with
  -- the test for an empty ring; a producer's slot is remembered to be the one under `in`
  | idle =>
    by_cases hl : s.q.lock = true
    · exact ⟨s.q, .idle, if_pos hl, .load h (by rw [hw]) trivial (by rw [hw]; rfl) rfl
        fun _ _ => rfl⟩
    · refine ⟨{ s.q with lock := true }, .testSz, if_neg hl,
        .still h rfl rfl (Nat.le_refl _) rfl ?_ trivial (by rw [hw]; rfl) rfl fun _ _ => rfl⟩
      rw [hw]
      exact .enter (by simpa using hl) rfl fun _ _ => rfl
  | testSz =>
    by_cases hlt : s.q.sz < 1
    · exact ⟨s.q, .zeroSz, by simp only [PopAt.next, if_pos hlt], .load h (by rw [hw]; rfl) trivial
        (by rw [hw]; rfl) rfl fun _ _ => rfl⟩
    · exact ⟨s.q, .testIn, by simp only [PopAt.next, if_neg hlt], .load h (by rw [hw]; rfl)
        (Nat.le_of_not_lt hlt) (by rw [hw]; rfl) rfl fun hzero _ => by omega⟩
  | testIn =>
    rw [hw] at hf hunder
    exact ⟨s.q, .testOut s.q.inIdx, rfl, .load h (by rw [hw]; rfl) ⟨hf, fun k => hunder rfl rfl⟩
      (by rw [hw]; rfl) rfl fun _ hd => by rw [hw] at hd; cases hd⟩
  | testOut i =>
    rw [hw] at hf
    by_cases he : i = s.q.outIdx
    · exact ⟨s.q, .zeroSz, by simp only [PopAt.next, if_pos he], .load h (by rw [hw]; rfl) trivial
        (by rw [hw]; rfl) rfl fun _ _ => rfl⟩
    · exact ⟨s.q, .wrapOut, by simp only [PopAt.next, if_neg he], .load h (by rw [hw]; rfl)
        ⟨hf.1, fun hk => he (hf.2 _ hk).symm⟩ (by rw [hw]; rfl) rfl
        fun _ hd => by rw [hw] at hd; cases hd⟩
  | zeroSz =>
    refine ⟨{ s.q with sz := 0 }, .emptyLeave, rfl,
      .still h rfl rfl (Nat.zero_le _) rfl ?_ trivial (by rw [hw]; rfl) rfl fun _ _ => rfl⟩
    rw [hw]
    exact .keep rfl fun _ _ => rfl
  | emptyLeave =>
    refine ⟨{ s.q with lock := false }, .testFull, rfl,
      .still h rfl rfl (Nat.le_refl _) rfl ?_ trivial (by rw [hw]; rfl) rfl fun _ _ => rfl⟩
    rw [hw]
    exact .leave rfl fun _ _ => rfl
  | testFull =>
    by_cases hfull : s.q.full = true
    · exact ⟨s.q, .resetIn, by simp only [PopAt.next, if_pos hfull], .load h (by rw [hw]; rfl)
        trivial (by rw [hw]; rfl) rfl fun _ _ => rfl⟩
    · exact ⟨s.q, .idle, by simp only [PopAt.next, if_neg hfull], .load h (by rw [hw]; rfl)
        trivial (by rw [hw]; rfl) rfl fun _ _ => rfl⟩
  -- `reset_ring`, with the producer outside its calls until the last access
  | resetIn =>
    refine ⟨{ s.q with inIdx := 0 }, .resetOut, rfl,
      .reset rfl hout (Nat.le_refl _) rfl (halone hw) ?_ rfl rfl⟩
    rw [hw]
    exact .keep rfl fun _ _ => rfl
  | resetOut =>
    rw [hw] at hf hself
    refine ⟨{ s.q with outIdx := 0 }, .resetSz, rfl,
      .reset rfl (by simp only; omega) (Nat.le_refl _) hf (hself rfl) ?_ ⟨hf, rfl⟩ rfl⟩
    rw [hw]
    exact .keep rfl fun _ _ => rfl
  | resetSz =>
    rw [hw] at hf hself
    refine ⟨{ s.q with sz := 0 }, .resetLock, rfl,
      .reset rfl hout (Nat.zero_le _) hf.1 (hself rfl) ?_ ⟨hf.1, hf.2, rfl⟩ rfl⟩
    rw [hw]
    exact .keep rfl fun _ _ => rfl
  | resetLock =>
    rw [hw] at hf hself
    refine ⟨{ s.q with lock := false }, .resetFull, rfl,
      .reset rfl hout (Nat.le_refl _) hf.1 (hself rfl) ?_ hf rfl⟩
    -- neither thread holds `q->lock` here, so clearing it changes nothing
    have hfree : s.q.lock = false := by
      rw [← Bool.not_eq_true, h.locks.ring, hw]
      have hprod := hself rfl
      revert hprod
      cases s.prod <;> simp [PushAt.outside, PushAt.hold, PushAt.inside, PopAt.hold, PopAt.inside]
    rw [hw]
    exact .keep hfree.symm fun _ _ => rfl
  | resetFull =>
    rw [hw] at hf hself
    have hpos : 0 < s.q.rsz := by omega
    refine ⟨{ s.q with full := false }, .resetLen 0, by simp only [PopAt.next, if_pos hpos],
      .reset rfl hout (Nat.le_refl _) hf.1 (hself rfl) ?_ ⟨hf.1, hf.2.1, hf.2.2, hpos⟩ rfl⟩
    rw [hw]
    exact .keep rfl fun _ _ => rfl
  | resetLen i =>
    rw [hw] at hf hself
    obtain ⟨hin, hzout, hzero, hi⟩ := hf
    have hkeep : ∀ w', PopAt.hold w' = ⟨none, false⟩ →
        LockMove s.q s.work.hold (s.q.setLen i 0) w'.hold := fun w' hhold => by
      rw [hhold, hw]
      refine .keep rfl fun j _ => ?_
      by_cases hj : j = i <;> simp [Q.setLen, hj]
    by_cases hmore : i + 1 < s.q.rsz
    · exact ⟨s.q.setLen i 0, .resetLen (i + 1), by simp only [PopAt.next, if_pos hi, if_pos hmore],
        .reset rfl hout (Nat.le_refl _) hin (hself rfl) (hkeep _ rfl) ⟨hin, hzout, hzero, hmore⟩
          rfl⟩
    · -- a slot that the producer holds need not be the one under `in` any more
      exact ⟨s.q.setLen i 0, .idle, by simp only [PopAt.next, if_pos hi, if_neg hmore],
        { rsz := rfl
          out_lt := hout
          sz := Nat.le_refl _
          inIdx := .inl rfl
          locks := hkeep _ rfl
          fits := trivial
          cursor := fun _ _ _ _ => .inr ⟨hin, hzout, hzero, rfl⟩
          alone := fun hres => by cases hres }⟩
  -- the scan; a slot that it finds locked is the producer's, and that one is slot 0
  | wrapOut =>
    rw [hw] at hf
    have hdec : dec32 s.q.rsz = s.q.rsz - 1 := dec32_of_pos (by omega)
    by_cases hge : s.q.outIdx ≥ dec32 s.q.rsz
    · exact ⟨s.q, .wrapZero, by simp only [PopAt.next, if_pos hge], .load h (by rw [hw]; rfl) hf.1
        (by rw [hw]; rfl) rfl fun _ hd => by rw [hw] at hd; cases hd⟩
    · exact ⟨s.q, .scanSz, by simp only [PopAt.next, if_neg hge], .load h (by rw [hw]; rfl)
        ⟨hf.1, by omega, fun k hk he => absurd (he ▸ hk) hf.2⟩ (by rw [hw]; rfl) rfl
        fun _ hd => by rw [hw] at hd; cases hd⟩
  | wrapZero =>
    rw [hw] at hf
    refine ⟨{ s.q with outIdx := 0 }, .scanSz, rfl,
      .found h rfl (by simp only; omega) (Nat.le_refl _) rfl ?_
        ⟨hf, by simp only; omega, fun _ _ _ => rfl⟩ (by rw [hw]; rfl) rfl (by rw [hw]; rfl)⟩
    rw [hw]
    exact .keep rfl fun _ _ => rfl
  | scanSz =>
    rw [hw] at hf
    have hpos : s.q.sz > 0 := hf.1
    exact ⟨s.q, .scanOut, by simp only [PopAt.next, if_pos hpos], .load h (by rw [hw]; rfl) hf
      (by rw [hw]; rfl) rfl fun _ hd => by rw [hw] at hd; cases hd⟩
  | scanOut =>
    rw [hw] at hf
    exact ⟨s.q, .scanLock s.q.outIdx, rfl, .load h (by rw [hw]; rfl) ⟨hf.1, rfl, hf.2⟩
      (by rw [hw]; rfl) rfl fun _ hd => by rw [hw] at hd; cases hd⟩
  | scanLock i =>
    rw [hw] at hf
    obtain ⟨hpos, rfl, hlt, hzero⟩ := hf
    by_cases hl : (s.q.R s.q.outIdx).lock = true
    · -- the producer holds the slot, and it is slot 0
      have hp : s.prod.owns = some s.q.outIdx := by
        have := (h.locks.slots _ hout).mp hl
        rw [hw] at this
        simpa [PushAt.hold, PopAt.hold, PopAt.owns] using this
      have hz := hzero _ hp rfl
      refine ⟨s.q, .stepTest, by simp only [PopAt.next, if_pos hout, if_pos hl],
        .load h (by rw [hw]; rfl) ⟨hpos, hz, fun k hk => ?_⟩ (by rw [hw]; rfl) rfl
        fun _ hd => by rw [hw] at hd; cases hd⟩
      rw [hp] at hk
      rw [← Option.some.inj hk, hz]
    · refine ⟨s.q.lockSlot s.q.outIdx, .leave (some s.q.outIdx),
        by simp only [PopAt.next, if_pos hout, if_neg hl],
        .found h rfl hout (Nat.le_refl _) rfl ?_ ⟨rfl, hlt⟩ (by rw [hw]; rfl) rfl (by rw [hw]; rfl)⟩
      rw [hw]
      refine .take hout (by simpa using hl) rfl fun j _ => ?_
      by_cases hj : j = s.q.outIdx <;> simp [Q.lockSlot, hj]
  | stepTest =>
    rw [hw] at hf
    have hge : ¬ s.q.outIdx ≥ dec32 s.q.rsz := by
      have := hf.2.1
      rw [dec32_of_pos (by omega)]
      omega
    exact ⟨s.q, .stepOut, by simp only [PopAt.next, if_neg hge], .load h (by rw [hw]; rfl) hf
      (by rw [hw]; rfl) rfl fun _ hd => by rw [hw] at hd; cases hd⟩
  | stepOut =>
    rw [hw] at hf
    have hone : inc32 s.q.outIdx = 1 := by rw [hf.2.1]; rfl
    exact ⟨s.q, .stepStore (inc32 s.q.outIdx), rfl, .load h (by rw [hw]; rfl)
      ⟨hf.1, hf.2.1, hone, hf.2.2⟩ (by rw [hw]; rfl) rfl fun _ hd => by rw [hw] at hd; cases hd⟩
  | stepStore i =>
    rw [hw] at hf
    obtain ⟨hpos, -, rfl, hzero⟩ := hf
    refine ⟨{ s.q with outIdx := 1 }, .scanSz, rfl,
      .found h rfl (by simp only; omega) (Nat.le_refl _) rfl ?_
        ⟨hpos, by simp only; omega, fun k hk he => ?_⟩ (by rw [hw]; rfl) rfl (by rw [hw]; rfl)⟩
    · rw [hw]
      exact .keep rfl fun _ _ => rfl
    · have := hzero k hk
      simp only at he
      omega
  -- the return expression, behind the release of `q->lock`
  | leave took =>
    rw [hw] at hf
    refine ⟨{ s.q with lock := false }, .prefetch took, rfl,
      .found h rfl hout (Nat.le_refl _) rfl ?_ hf (by rw [hw]; rfl) rfl (by rw [hw]; rfl)⟩
    rw [hw]
    exact .leave rfl fun _ _ => rfl
  | prefetch took =>
    rw [hw] at hf
    have hlt : inc32 s.q.outIdx < s.q.rsz := by
      rw [inc32_of_lt hout hb]
      exact hf.2
    exact ⟨s.q, .retOut took, if_pos hlt, .load h (by rw [hw]; rfl) hf (by rw [hw]; rfl) rfl
      fun _ hd => by rw [hw] at hd; cases hd⟩
  | retOut took =>
    rw [hw] at hf
    exact ⟨s.q, .retStore took s.q.outIdx, rfl, .load h (by rw [hw]; rfl) ⟨hf.1, rfl, hf.2⟩
      (by rw [hw]; rfl) rfl fun _ hd => by rw [hw] at hd; cases hd⟩
  | retStore took i =>
    rw [hw] at hf
    obtain ⟨rfl, rfl, hlt⟩ := hf
    have hinc : inc32 s.q.outIdx = s.q.outIdx + 1 := inc32_of_lt hout hb
    refine ⟨{ s.q with outIdx := inc32 s.q.outIdx }, .holding (some s.q.outIdx) s.q.outIdx, rfl,
      .found h rfl (by simp only [hinc]; exact hlt) (Nat.le_refl _) rfl ?_ ⟨rfl, hlt⟩
        (by rw [hw]; rfl) rfl (by rw [hw]; rfl)⟩
    rw [hw]
    exact .keep rfl fun _ _ => rfl
  -- the release; the count stored comes from a load before, and an update in between is lost
  | holding took got =>
    rw [hw] at hf
    have hgot : got < s.q.rsz := by have := hf.2; omega
    refine ⟨s.q.setLen got (-1), .relTest got, if_pos hgot,
      .found h rfl hout (Nat.le_refl _) rfl ?_ hf.2 (by rw [hw]; rfl) rfl (by rw [hw]; rfl)⟩
    rw [hw]
    refine .keep rfl fun j _ => ?_
    by_cases hj : j = got <;> simp [Q.setLen, hj]
  | relTest got =>
    rw [hw] at hf
    have hgot : got + 1 < s.q.rsz := hf
    by_cases hlt : s.q.sz < 1
    · exact ⟨s.q, .relStore got 0, by simp only [PopAt.next, if_pos hlt], .load h (by rw [hw]; rfl)
        ⟨hgot, Nat.zero_le _, by omega⟩ (by rw [hw]; rfl) rfl
        fun _ hd => by rw [hw] at hd; cases hd⟩
    · exact ⟨s.q, .relLoad got, by simp only [PopAt.next, if_neg hlt], .load h (by rw [hw]; rfl)
        ⟨hgot, Nat.le_of_not_lt hlt⟩ (by rw [hw]; rfl) rfl
        fun _ hd => by rw [hw] at hd; cases hd⟩
  | relLoad got =>
    rw [hw] at hf
    obtain ⟨hgot, hpos⟩ := hf
    have hdec : dec32 s.q.sz = s.q.sz - 1 := dec32_of_pos (by omega)
    exact ⟨s.q, .relStore got (dec32 s.q.sz), rfl, .load h (by rw [hw]; rfl)
      ⟨hgot, by omega, by omega⟩ (by rw [hw]; rfl) rfl fun _ hd => by rw [hw] at hd; cases hd⟩
  | relStore got n =>
    rw [hw] at hf
    refine ⟨{ s.q with sz := n }, .relUnlock got, rfl,
      .found h rfl hout hf.2.1 rfl ?_ hf.1 (by rw [hw]; rfl) rfl (by rw [hw]; rfl)⟩
    rw [hw]
    exact .keep rfl fun _ _ => rfl
  | relUnlock got =>
    rw [hw] at hf
    have hgot : got < s.q.rsz := by have : got + 1 < s.q.rsz := hf; omega
    refine ⟨s.q.unlockSlot got, .idle, if_pos hgot,
      .found h rfl hout (Nat.le_refl _) rfl ?_ trivial (by rw [hw]; rfl) rfl (by rw [hw]; rfl)⟩
    rw [hw]
    refine .give rfl fun j _ => ?_
    by_cases hj : j = got <;> simp [Q.unlockSlot, hj]

/-- What an access of the worker leaves is the invariant again: the producer's part is stable under
it. -/
theorem AccessInv.worker (h : AccessInv s) (hdone : PopDone s q' w') :
    AccessInv { s with q := q', work := w' } := by
  have hrsz := hdone.rsz
  have hle := h.sz_le
  have hsz := hdone.sz
  exact
    { safe := h.safe
      three := hrsz ▸ h.three
      bound := hrsz ▸ h.bound
      sz_le := by simp only; omega
      out_lt := hrsz ▸ hdone.out_lt
      locks := (h.locks.symm.move hrsz hdone.locks).symm
      prod := h.prod.stable hrsz (by have := h.three; omega) hdone.inIdx hsz fun hp =>
        h.locks.symm.slot_mono hp hdone.locks
      work := hdone.fits
      cursor := hdone.cursor
      alone := hdone.alone }

end Worker

end Lanes
