import Lanes.Access.Run

/-!
# The calls are wait-free

`push` and `pop` scan for an unlocked slot in a loop. While a thread scans it holds `q->lock`, so
the other one can only unlock, and the scan meets one locked slot at most. So a call ends after a
number of its own accesses that does not depend on what the other thread does in between.

The argument is a rank. `PushAt.left` and `PopAt.left` bound the accesses still to come, by the
place and by the lock of the slot that the scan tries next. An access of the thread itself lowers
the rank (`AccessInv.push_left`, `AccessInv.pop_left`); an access of the other one does not raise it
(`left_mono`), since it takes no slot meanwhile. **`calls_waitFree`** counts with it over a run.
-/

namespace Lanes

/-! ## How many accesses are left

A locked slot costs the scan one more round, and only one, because the next slot is free. What
`pop` adds is the reset, with one store for each slot of the ring. -/

/-- The producer is inside `push`, past its first access. -/
def PushAt.called : PushAt → Bool
  | .idle | .holding _ _ | .szTest | .szLoad _ | .szStore _ | .inAdd | .inTest | .inLoad
  | .inSub _ => false
  | _ => true

/-- The accesses that `push` still makes, at most. -/
def PushAt.left (q : Q) : PushAt → Nat
  | .scanIn => if (q.R q.inIdx).lock then 17 else 11
  | .scanLock i => if (q.R i).lock then 16 else 10
  | .scanWrap => 15
  | .scanZero => 14
  | .scanNext => 13
  | .scanStore _ => 12
  | .wrapIn _ => 9
  | .wrapZero _ => 8
  | .fullSz _ => 7
  | .fullIn _ => 6
  | .fullOut _ _ => 5
  | .setFull _ => 4
  | .giveIn _ | .prefetch _ => 3
  | .giveBack _ _ | .leave _ => 2
  | .refused | .retIn _ => 1
  | .idle | .holding _ _ | .szTest | .szLoad _ | .szStore _ | .inAdd | .inTest | .inLoad
  | .inSub _ => 0

/-- The worker is inside `pop`, past its first access. -/
def PopAt.called : PopAt → Bool
  | .idle | .holding _ _ | .relTest _ | .relLoad _ | .relStore _ _ | .relUnlock _ => false
  | _ => true

/-- The accesses that `pop` still makes, at most. -/
def PopAt.left (q : Q) : PopAt → Nat
  | .testSz => q.rsz + 18
  | .testIn => q.rsz + 17
  | .testOut _ => q.rsz + 16
  | .zeroSz => q.rsz + 8
  | .emptyLeave => q.rsz + 7
  | .testFull => q.rsz + 6
  | .resetIn => q.rsz + 5
  | .resetOut => q.rsz + 4
  | .resetSz => q.rsz + 3
  | .resetLock => q.rsz + 2
  | .resetFull => q.rsz + 1
  | .resetLen i => q.rsz - i
  | .wrapOut => 15
  | .wrapZero => 14
  | .scanSz => if (q.R q.outIdx).lock then 13 else 7
  | .scanOut => if (q.R q.outIdx).lock then 12 else 6
  | .scanLock i => if (q.R i).lock then 11 else 5
  | .stepTest => 10
  | .stepOut => 9
  | .stepStore _ => 8
  | .leave _ => 4
  | .prefetch _ => 3
  | .retOut _ => 2
  | .retStore _ _ => 1
  | .idle | .holding _ _ | .relTest _ | .relLoad _ | .relStore _ _ | .relUnlock _ => 0

/-! ## One access

For each thread: its own accesses, those of the other one, and both together as a rank. -/

section Calls

variable {s s' : Shared} {q' : Q} {p' : PushAt} {w' : PopAt}

theorem PushAt.left_le (q : Q) (p : PushAt) : p.left q ≤ 17 := by
  cases p <;> simp only [PushAt.left] <;> first | omega | (split <;> omega)

theorem PopAt.left_le (q : Q) (w : PopAt) : w.left q ≤ q.rsz + 18 := by
  cases w <;> simp only [PopAt.left] <;> first | omega | (split <;> omega)

/-- The slot that the scan of `push` moves on to is free. -/
theorem AccessInv.next_free (h : AccessInv s) {i : Nat} (hp : s.prod = .scanStore i) :
    (s.q.R (i + 1)).lock = false := by
  have hf := h.prod
  rw [hp] at hf
  obtain ⟨-, hi, hw⟩ := hf
  rw [← Bool.not_eq_true, h.locks.slots _ hi, hp]
  rintro (hk | hk)
  · cases hk
  · have := hw _ hk
    omega

/-- An access of `push` is one less to go. -/
theorem AccessInv.push_left (h : AccessInv s) (hc : s.prod.called = true)
    (hnext : s.prod.next s.q = .ok (q', p')) : p'.left q' + 1 ≤ s.prod.left s.q := by
  have hb := h.bound
  cases hp : s.prod with
  | scanIn =>
    rw [hp] at hnext
    cases hnext
    simp only [PushAt.left]
    split <;> omega
  | scanLock i =>
    rw [hp] at hnext
    simp only [PushAt.next] at hnext
    split at hnext
    · split at hnext
      · cases hnext
        simp only [PushAt.left, if_pos ‹(s.q.R i).lock = true›]
        omega
      · cases hnext
        simp only [PushAt.left, if_neg ‹¬ (s.q.R i).lock = true›]
        omega
    · cases hnext
  | scanStore i =>
    have hfree := h.next_free hp
    have hf := h.prod
    rw [hp] at hnext hf
    cases hnext
    have hinc : inc32 i = i + 1 := inc32_of_lt (Nat.lt_of_succ_lt hf.2.1) hb
    simp [PushAt.left, hinc, hfree]
  | scanWrap | wrapIn | fullSz | fullOut =>
    rw [hp] at hnext
    cases hnext
    split_ifs <;> simp [PushAt.left]
  | giveBack | prefetch =>
    rw [hp] at hnext
    simp only [PushAt.next] at hnext
    split at hnext
    · cases hnext
      simp [PushAt.left]
    · cases hnext
  | scanZero | scanNext | wrapZero | fullIn | setFull | giveIn | refused | leave | retIn =>
    rw [hp] at hnext
    cases hnext
    simp [PushAt.left]
  | _ =>
    rw [hp] at hc
    cases hc

/-- An unlock can only shorten the call of the other thread. -/
theorem PushAt.left_mono {q : Q} {p : PushAt} {w : Option Nat} (hf : p.Fits q w)
    (hin : q'.inIdx = q.inIdx) (hlock : p.inside = true → ∀ i < q.rsz, (q'.R i).lock = true →
      (q.R i).lock = true) : p.left q' ≤ p.left q := by
  cases p with
  | scanIn =>
    have hmono := hlock rfl _ hf
    simp only [PushAt.left, hin]
    split_ifs <;> simp_all
  | scanLock i =>
    have hmono := hlock rfl i hf.2
    simp only [PushAt.left]
    split_ifs <;> simp_all
  | _ => exact Nat.le_refl _

/-- One step of either thread while the producer is inside `push`. -/
theorem AccessInv.push_rank {a : Access} (h : AccessInv s) (hc : s.prod.called = true)
    (halone : ResetAlone s a) (ha : accessStep s a = some s') :
    s'.prod.left s'.q + (if a == .producer then 1 else 0) ≤ s.prod.left s.q := by
  obtain ⟨rfl, q', p', hnext, -, rfl⟩ | ⟨rfl, q', w', -, hdone, rfl⟩ |
    ⟨n, took, got, rfl, hp, rfl⟩ := h.step_cases halone ha
  · exact h.push_left hc hnext
  · refine PushAt.left_mono h.prod ?_ fun hi _ => h.locks.symm.lock_mono hi hdone.locks
    rcases hdone.inIdx with hin | ⟨-, hout⟩
    · exact hin
    · revert hc hout
      cases s.prod <;> simp [PushAt.called, PushAt.outside]
  · rw [hp] at hc
    cases hc

/-- The slot that the scan of `pop` moves on to is free. -/
theorem AccessInv.pop_next_free (h : AccessInv s) {i : Nat} (hw : s.work = .stepStore i) :
    i = 1 ∧ (s.q.R 1).lock = false := by
  have hf := h.work
  have h3 := h.three
  rw [hw] at hf
  obtain ⟨-, -, hi, hp⟩ := hf
  refine ⟨hi, ?_⟩
  rw [← Bool.not_eq_true, h.locks.slots 1 (by omega), hw]
  rintro (hk | hk)
  · have := hp _ hk
    omega
  · cases hk

/-- An access of `pop` is one less to go. -/
theorem AccessInv.pop_left (h : AccessInv s) (hc : s.work.called = true)
    (hnext : s.work.next s.q = .ok (q', w')) : w'.left q' + 1 ≤ s.work.left s.q := by
  cases hw : s.work with
  | scanOut =>
    rw [hw] at hnext
    cases hnext
    simp only [PopAt.left]
    split_ifs <;> omega
  | scanLock i =>
    rw [hw] at hnext
    simp only [PopAt.next] at hnext
    split at hnext
    · split at hnext
      · cases hnext
        simp only [PopAt.left, if_pos ‹(s.q.R i).lock = true›]
        omega
      · cases hnext
        simp only [PopAt.left, if_neg ‹¬ (s.q.R i).lock = true›]
        omega
    · cases hnext
  | scanSz =>
    have hf := h.work
    rw [hw] at hnext hf
    have hpos : s.q.sz > 0 := hf.1
    simp only [PopAt.next, if_pos hpos] at hnext
    cases hnext
    simp only [PopAt.left]
    split_ifs <;> omega
  | stepStore i =>
    obtain ⟨rfl, hfree⟩ := h.pop_next_free hw
    rw [hw] at hnext
    cases hnext
    simp [PopAt.left, hfree]
  | wrapZero =>
    rw [hw] at hnext
    cases hnext
    simp only [PopAt.left]
    split_ifs <;> omega
  | testSz | testOut | testFull | resetFull | wrapOut | stepTest =>
    rw [hw] at hnext
    cases hnext
    split_ifs <;> simp only [PopAt.left] <;> (try split_ifs) <;> omega
  | resetLen i =>
    rw [hw] at hnext
    simp only [PopAt.next] at hnext
    split at hnext
    · cases hnext
      split_ifs <;> simp only [PopAt.left, Q.setLen] <;> omega
    · cases hnext
  | prefetch =>
    rw [hw] at hnext
    simp only [PopAt.next] at hnext
    split at hnext
    · cases hnext
      simp [PopAt.left]
    · cases hnext
  | testIn | zeroSz | emptyLeave | resetIn | resetOut | resetSz | resetLock | stepOut | leave
  | retOut | retStore =>
    rw [hw] at hnext
    cases hnext
    simp only [PopAt.left]
    omega
  | _ =>
    rw [hw] at hc
    cases hc

theorem PopAt.left_mono {q : Q} {w : PopAt} {p : Option Nat} (hf : w.Fits q p)
    (hrsz : q'.rsz = q.rsz) (hout : q'.outIdx = q.outIdx)
    (hlock : w.inside = true → ∀ i < q.rsz, (q'.R i).lock = true → (q.R i).lock = true) :
    w.left q' ≤ w.left q := by
  cases w with
  | scanSz | scanOut =>
    have hmono := hlock rfl q.outIdx (by have := hf.2.1; omega)
    simp only [PopAt.left, hout]
    split_ifs <;> simp_all
  | scanLock i =>
    have hmono := hlock rfl i (by have := hf.2.2.1; omega)
    simp only [PopAt.left]
    split_ifs <;> simp_all
  | _ => simp only [PopAt.left, hrsz, Nat.le_refl]

/-- One step of either thread while the worker is inside `pop`. -/
theorem AccessInv.pop_rank {a : Access} (h : AccessInv s) (hc : s.work.called = true)
    (halone : ResetAlone s a) (ha : accessStep s a = some s') :
    s'.work.left s'.q + (if a == .worker then 1 else 0) ≤ s.work.left s.q := by
  obtain ⟨rfl, q', p', -, hdone, rfl⟩ | ⟨rfl, q', w', hnext, -, rfl⟩ |
    ⟨n, took, got, rfl, hp, rfl⟩ := h.step_cases halone ha
  · exact PopAt.left_mono h.work hdone.rsz hdone.outIdx fun hi _ =>
      h.locks.lock_mono hi hdone.locks
  · exact h.pop_left hc hnext
  · refine PopAt.left_mono h.work rfl rfl fun _ i _ hl => ?_
    by_cases hi : i = got <;> simpa [Q.setLen, hi] using hl

end Calls

/-- **Wait-freedom.** In a run of single accesses in which `reset_ring` runs alone, a call of `push`
ends after at most 17 accesses behind its first one and a call of `pop`, with the reset that it may
run, after at most `rsz + 18`, however many steps the other thread takes in between. -/
theorem calls_waitFree {s₀ s s' : Shared} {as bs : List Access} (h₀ : s₀.Start)
    (hok : Run.Within accessStep ResetAlone s₀ as) (hrun : Run.exec accessStep s₀ as = some s)
    (hmore : Run.exec accessStep s bs = some s') :
    (Run.Within accessStep (fun s a => ResetAlone s a ∧ s.prod.called = true) s bs →
      bs.count .producer ≤ 17) ∧
    (Run.Within accessStep (fun s a => ResetAlone s a ∧ s.work.called = true) s bs →
      bs.count .worker ≤ s.q.rsz + 18) := by
  have hinv := accessInv_of_alone h₀ hok hrun
  refine ⟨fun hin => ?_, fun hin => ?_⟩
  · have hcount := Run.countP_le_of_rank AccessInv (fun s => s.prod.called = true)
      (fun s => s.prod.left s.q) (· == .producer) (fun _ _ _ h hok ha => h.step hok ha)
      (fun _ _ _ h hc hok ha => h.push_rank hc hok ha) hin hmore hinv
    have hle := PushAt.left_le s.q s.prod
    rw [List.count]
    omega
  · have hcount := Run.countP_le_of_rank AccessInv (fun s => s.work.called = true)
      (fun s => s.work.left s.q) (· == .worker) (fun _ _ _ h hok ha => h.step hok ha)
      (fun _ _ _ h hc hok ha => h.pop_rank hc hok ha) hin hmore hinv
    have hle := PopAt.left_le s.q s.work
    rw [List.count]
    omega

/-- The worker tries `q->lock` before each access of a call of `push`. -/
def contendedPush : List Access := (List.replicate 9 [.worker, .producer]).flatten

theorem calls_waitFree_contended :
    ∃ s s', Run.exec accessStep smallShared [.producer] = some s ∧
      Run.exec accessStep s contendedPush = some s' ∧ s'.prod = .holding 0 0 ∧
      contendedPush.count .producer ≤ 17 := by
  have hrun : ((Run.exec accessStep smallShared [.producer]).bind fun s =>
      Run.exec accessStep s contendedPush).map Shared.prod = some (.holding 0 0) := by
    decide +kernel
  obtain ⟨s', hs', hprod⟩ := Option.map_eq_some_iff.mp hrun
  obtain ⟨s, hs, hmore⟩ := Option.bind_eq_some_iff.mp hs'
  refine ⟨s, s', hs, hmore, hprod, ?_⟩
  have hstart : Run.Within accessStep ResetAlone smallShared [.producer] := by decide +kernel
  refine (calls_waitFree smallShared_start hstart hs hmore).1 ?_
  have hcalled : ∀ m, Run.exec accessStep smallShared [.producer] = some m →
      Run.Within accessStep (fun s a => ResetAlone s a ∧ s.prod.called = true) m contendedPush := by
    have : Run.Within accessStep (fun s a => ResetAlone s a ∧ s.prod.called = true)
        smallShared.producer contendedPush := by decide +kernel
    intro m hm
    obtain rfl : smallShared.producer = m := by simpa [Run.exec, accessStep, smallShared] using hm
    exact this
  exact hcalled s hs

end Lanes
