import Lanes.Access.Model

/-!
# Exclusion at the grain of single accesses

Neither `sz` nor the cursors are updated under `q->lock`, so what protects the slots has to survive
lost updates. It does, as long as `reset_ring` runs alone: the producer only ever raises `sz`, the
worker only ever lowers it, and what a thread has read about the locks cannot be undone by the other
one while it holds `q->lock`.

## The idea

An update such as `sz = sz - 1` is a load and a store with steps of the other thread between them,
so no exact value of `sz` is an invariant. What is invariant is one-sided. The worker that has seen
a packet knows that `sz` is at least 1, which a commit cannot make false; the producer that has
found room knows the same of its bound, which a release cannot make false.

## The architecture

* **`Exclusive`**: who holds `q->lock` and which slot, the same for both threads. `LockMove` is what
  one access does to the locks, and `Exclusive.move` covers every access of either thread.
* **`PushAt.Fits`, `PopAt.Fits`**: what each thread knows at each of its accesses.
* **`AccessInv`**: both of these, and the cursors. The next two modules keep it over one access of
  each thread; `Fits.stable` below is the other half, that the other thread's knowledge survives.
-/

namespace Lanes

/-! ## Two threads and the locks

The five things that an access can do to the locks: nothing, enter, leave, take a slot, give it
back. A slot is taken only under `q->lock`, which is why two threads cannot take the same one. -/

/-- What a thread holds: at most one slot, and possibly `q->lock`. -/
structure Hold where
  slot : Option Nat
  ring : Bool

/-- What one access does to the locks, for the thread that makes it. -/
inductive LockMove (q : Q) : Hold → Q → Hold → Prop where
  | keep {q' : Q} {m : Hold} (ring : q'.lock = q.lock)
      (slots : ∀ j < q.rsz, (q'.R j).lock = (q.R j).lock) : LockMove q m q' m
  | enter {q' : Q} {o : Option Nat} (free : q.lock = false) (ring : q'.lock = true)
      (slots : ∀ j < q.rsz, (q'.R j).lock = (q.R j).lock) : LockMove q ⟨o, false⟩ q' ⟨o, true⟩
  | leave {q' : Q} {o : Option Nat} (ring : q'.lock = false)
      (slots : ∀ j < q.rsz, (q'.R j).lock = (q.R j).lock) : LockMove q ⟨o, true⟩ q' ⟨o, false⟩
  | take {q' : Q} {i : Nat} (lt : i < q.rsz) (free : (q.R i).lock = false)
      (ring : q'.lock = q.lock)
      (slots : ∀ j < q.rsz, (q'.R j).lock = if j = i then true else (q.R j).lock) :
      LockMove q ⟨none, true⟩ q' ⟨some i, true⟩
  | give {q' : Q} {i : Nat} {r : Bool} (ring : q'.lock = q.lock)
      (slots : ∀ j < q.rsz, (q'.R j).lock = if j = i then false else (q.R j).lock) :
      LockMove q ⟨some i, r⟩ q' ⟨none, r⟩

/-- At most one thread holds `q->lock`, no slot is held twice, and what is locked is held. -/
structure Exclusive (q : Q) (p w : Hold) : Prop where
  ring : q.lock = true ↔ p.ring = true ∨ w.ring = true
  one : p.ring = true → w.ring = false
  slots : ∀ i < q.rsz, (q.R i).lock = true ↔ p.slot = some i ∨ w.slot = some i
  apart : ∀ i, p.slot = some i → w.slot ≠ some i

theorem Exclusive.symm {q : Q} {p w : Hold} (h : Exclusive q p w) : Exclusive q w p where
  ring := h.ring.trans or_comm
  one hw := by
    rw [← Bool.not_eq_true]
    intro hp
    rw [h.one hp] at hw
    cases hw
  slots i hi := (h.slots i hi).trans or_comm
  apart i hw hp := h.apart i hp hw

theorem Exclusive.move {q q' : Q} {p p' w : Hold} (h : Exclusive q p w) (hrsz : q'.rsz = q.rsz)
    (hmove : LockMove q p q' p') : Exclusive q' p' w := by
  have hring := h.ring
  have hslots := h.slots
  have hapart := h.apart
  cases hmove with
  | keep ring slots =>
    exact
      { ring := ring ▸ hring
        one := h.one
        slots := fun i hi => by
          rw [hrsz] at hi
          rw [slots i hi, hslots i hi]
        apart := hapart }
  | enter free ring slots =>
    have hw : w.ring = false := by
      cases hw : w.ring with
      | false => rfl
      | true => rw [free] at hring; simp [hw] at hring
    exact
      { ring := by simp [ring]
        one := fun _ => hw
        slots := fun i hi => by
          rw [hrsz] at hi
          rw [slots i hi, hslots i hi]
        apart := hapart }
  | leave ring slots =>
    exact
      { ring := by simp [ring, h.one rfl]
        one := fun hp => by cases hp
        slots := fun i hi => by
          rw [hrsz] at hi
          rw [slots i hi, hslots i hi]
        apart := hapart }
  | @take _ i lt free ring slots =>
    have hw : w.slot ≠ some i := fun hw => by
      have := (hslots i lt).mpr (.inr hw)
      rw [free] at this
      cases this
    exact
      { ring := ring ▸ hring
        one := h.one
        slots := fun j hj => by
          rw [hrsz] at hj
          rw [slots j hj]
          by_cases hji : j = i
          · simp [hji]
          · simpa [hji, Ne.symm hji] using hslots j hj
        apart := fun j hj => Option.some.inj hj ▸ hw }
  | @give _ i r ring slots =>
    exact
      { ring := ring ▸ hring
        one := h.one
        slots := fun j hj => by
          rw [hrsz] at hj
          rw [slots j hj]
          by_cases hji : j = i
          · simpa [hji] using hapart i rfl
          · simpa [hji, Ne.symm hji] using hslots j hj
        apart := fun j hj => by cases hj }

/-- While the other thread holds `q->lock` a thread takes no slot. -/
theorem Exclusive.slot_mono {q q' : Q} {p p' w : Hold} (h : Exclusive q p w) (hw : w.ring = true)
    (hmove : LockMove q p q' p') (k : Nat) (hk : p'.slot = some k) : p.slot = some k := by
  cases hmove with
  | keep => exact hk
  | enter => exact hk
  | leave => exact hk
  | take =>
    have := h.one rfl
    rw [hw] at this
    cases this
  | give => cases hk

/-- And it locks none. -/
theorem Exclusive.lock_mono {q q' : Q} {p p' w : Hold} (h : Exclusive q p w) (hw : w.ring = true)
    (hmove : LockMove q p q' p') {i : Nat} (hi : i < q.rsz) (hl : (q'.R i).lock = true) :
    (q.R i).lock = true := by
  cases hmove with
  | keep _ slots => rwa [slots i hi] at hl
  | enter _ _ slots => rwa [slots i hi] at hl
  | leave _ slots => rwa [slots i hi] at hl
  | take =>
    have := h.one rfl
    rw [hw] at this
    cases this
  | give _ slots =>
    rw [slots i hi] at hl
    split at hl
    · cases hl
    · exact hl

/-! ## The invariant

`Fits` goes through the places one by one. `False` marks the two that are never reached: the wraps
of `push` before its step and after its scan, since `in` stays below `rsz` there. -/

def PushAt.hold (p : PushAt) : Hold := ⟨p.owns, p.inside⟩

def PopAt.hold (w : PopAt) : Hold := ⟨w.owns, w.inside⟩

/-- What the producer knows of the ring at each access, when the worker holds slot `w`. -/
def PushAt.Fits (q : Q) (w : Option Nat) : PushAt → Prop
  | .idle | .scanIn | .refused | .szTest | .inAdd => q.inIdx < q.rsz
  | .scanLock i => q.inIdx = i ∧ i < q.rsz
  -- the worker's slot was under `in`, and it is never the last one
  | .scanWrap | .scanNext => q.inIdx + 1 < q.rsz ∧ ∀ k, w = some k → k = q.inIdx
  | .scanStore i => q.inIdx = i ∧ i + 1 < q.rsz ∧ ∀ k, w = some k → k = i
  | .wrapIn took | .fullSz took | .fullIn took | .setFull took | .giveIn took | .prefetch took
  | .leave took | .retIn took => q.inIdx = took ∧ took < q.rsz
  | .fullOut took i | .giveBack took i => q.inIdx = took ∧ i = took ∧ took < q.rsz
  | .scanZero | .wrapZero _ => False
  | .holding took got => got = took ∧ got < q.rsz ∧ q.inIdx < q.rsz
  | .szLoad grow => q.inIdx < q.rsz ∧ (grow = true → q.sz < q.rsz)
  | .szStore n => q.inIdx < q.rsz ∧ n ≤ q.rsz ∧ q.sz ≤ n
  | .inTest => q.inIdx ≤ q.rsz
  | .inLoad => q.inIdx = q.rsz
  | .inSub n => q.inIdx = q.rsz ∧ n = q.rsz

/-- What the worker knows of the ring at each access, when the producer holds slot `p`. -/
def PopAt.Fits (q : Q) (p : Option Nat) : PopAt → Prop
  | .testIn => 1 ≤ q.sz
  | .testOut i => 1 ≤ q.sz ∧ ∀ k, p = some k → k = i
  | .wrapOut => 1 ≤ q.sz ∧ p ≠ some q.outIdx
  | .wrapZero => 1 ≤ q.sz
  | .scanSz | .scanOut =>
    1 ≤ q.sz ∧ q.outIdx + 1 < q.rsz ∧ ∀ k, p = some k → k = q.outIdx → q.outIdx = 0
  | .scanLock i =>
    1 ≤ q.sz ∧ q.outIdx = i ∧ i + 1 < q.rsz ∧ ∀ k, p = some k → k = i → i = 0
  -- only a producer's slot under 0 makes the scan of `pop` go on
  | .stepTest | .stepOut => 1 ≤ q.sz ∧ q.outIdx = 0 ∧ ∀ k, p = some k → k = 0
  | .stepStore i => 1 ≤ q.sz ∧ q.outIdx = 0 ∧ i = 1 ∧ ∀ k, p = some k → k = 0
  | .leave took | .prefetch took | .retOut took => took = some q.outIdx ∧ q.outIdx + 1 < q.rsz
  | .retStore took i => took = some q.outIdx ∧ i = q.outIdx ∧ q.outIdx + 1 < q.rsz
  | .holding took got => took = some got ∧ got + 1 < q.rsz
  | .relTest got | .relUnlock got => got + 1 < q.rsz
  | .relLoad got => got + 1 < q.rsz ∧ 1 ≤ q.sz
  | .relStore got n => got + 1 < q.rsz ∧ n ≤ q.sz ∧ n < q.rsz
  | .resetOut => q.inIdx = 0
  | .resetSz => q.inIdx = 0 ∧ q.outIdx = 0
  | .resetLock | .resetFull => q.inIdx = 0 ∧ q.outIdx = 0 ∧ q.sz = 0
  | .resetLen i => q.inIdx = 0 ∧ q.outIdx = 0 ∧ q.sz = 0 ∧ i < q.rsz
  | .idle | .testSz | .zeroSz | .emptyLeave | .testFull | .resetIn => True

/-- The worker has not found a packet yet. -/
def PopAt.drained : PopAt → Bool
  | .idle | .testSz | .zeroSz | .emptyLeave | .testFull | .resetIn => true
  | _ => false

/-- Where the cursors are while the producer holds slot `got`: `in` is on it, or the ring was reset
and the worker has found no packet since. -/
def CursorOn (q : Q) (w : PopAt) (got : Nat) : Prop :=
  q.inIdx = got ∨ (q.inIdx = 0 ∧ q.outIdx = 0 ∧ q.sz = 0 ∧ w.drained = true)

/-- The invariant of the runs in which `reset_ring` runs alone. -/
structure AccessInv (s : Shared) : Prop where
  safe : s.fault = none
  three : 3 ≤ s.q.rsz
  bound : s.q.rsz < 2 ^ 32
  sz_le : s.q.sz ≤ s.q.rsz
  out_lt : s.q.outIdx < s.q.rsz
  locks : Exclusive s.q s.prod.hold s.work.hold
  prod : s.prod.Fits s.q s.work.owns
  work : s.work.Fits s.q s.prod.owns
  cursor : ∀ took got, s.prod = .holding took got → s.work.resetting = false →
    CursorOn s.q s.work got
  alone : s.work.resetting = true → s.prod.outside = true

/-! ## What the other thread leaves alone

One lemma for each thread, over all places of the one that stands still. -/

section Stable

variable {q q' : Q}

/-- The producer may raise `sz`, and may take a slot only while the worker is outside `q->lock`. -/
theorem PopAt.Fits.stable {w : PopAt} {p p' : Option Nat} (h : w.Fits q p)
    (hr : w.resetting = false) (hrsz : q'.rsz = q.rsz) (hout : q'.outIdx = q.outIdx)
    (hsz : q.sz ≤ q'.sz) (hp : w.inside = true → ∀ k, p' = some k → p = some k) :
    w.Fits q' p' := by
  cases w with
  | testOut i => exact ⟨hsz.trans' h.1, fun k hk => h.2 k (hp rfl k hk)⟩
  | wrapOut => exact ⟨hsz.trans' h.1, fun hk => h.2 (hp rfl _ (hout ▸ hk))⟩
  | scanSz | scanOut =>
    refine ⟨hsz.trans' h.1, by rw [hout, hrsz]; exact h.2.1, fun k hk he => ?_⟩
    rw [hout] at he ⊢
    exact h.2.2 k (hp rfl k hk) he
  | scanLock i =>
    exact ⟨hsz.trans' h.1, hout.trans h.2.1, hrsz ▸ h.2.2.1, fun k hk => h.2.2.2 k (hp rfl k hk)⟩
  | stepTest | stepOut =>
    exact ⟨hsz.trans' h.1, hout.trans h.2.1, fun k hk => h.2.2 k (hp rfl k hk)⟩
  | stepStore i =>
    exact ⟨hsz.trans' h.1, hout.trans h.2.1, h.2.2.1, fun k hk => h.2.2.2 k (hp rfl k hk)⟩
  | testIn | wrapZero => exact hsz.trans' h
  | leave | prefetch | retOut | retStore | holding | relTest | relUnlock =>
    simpa only [PopAt.Fits, hout, hrsz] using h
  | relLoad => exact ⟨hrsz ▸ h.1, hsz.trans' h.2⟩
  | relStore => exact ⟨hrsz ▸ h.1, hsz.trans' h.2.1, hrsz ▸ h.2.2⟩
  | resetOut | resetSz | resetLock | resetFull | resetLen => cases hr
  | idle | testSz | zeroSz | emptyLeave | testFull | resetIn => trivial

/-- The worker may lower `sz`, may take a slot only while the producer is outside `q->lock`, and
moves `in` only while the producer is outside its calls. -/
theorem PushAt.Fits.stable {p : PushAt} {w w' : Option Nat} (h : p.Fits q w)
    (hrsz : q'.rsz = q.rsz) (hpos : 0 < q.rsz)
    (hin : q'.inIdx = q.inIdx ∨ (q'.inIdx = 0 ∧ p.outside = true)) (hsz : q'.sz ≤ q.sz)
    (hw : p.inside = true → ∀ k, w' = some k → w = some k) : p.Fits q' w' := by
  rcases hin with hin | ⟨hin, hout⟩
  · cases p with
    | scanWrap | scanNext =>
      refine ⟨by rw [hin, hrsz]; exact h.1, fun k hk => ?_⟩
      rw [hin]
      exact h.2 k (hw rfl k hk)
    | scanStore i => exact ⟨hin.trans h.1, hrsz ▸ h.2.1, fun k hk => h.2.2 k (hw rfl k hk)⟩
    | szLoad grow => exact ⟨by rw [hin, hrsz]; exact h.1, fun hg => by have := h.2 hg; omega⟩
    | szStore n => exact ⟨by rw [hin, hrsz]; exact h.1, hrsz ▸ h.2.1, hsz.trans h.2.2⟩
    | scanZero | wrapZero => exact h
    | _ => simpa only [PushAt.Fits, hin, hrsz] using h
  · -- the reset of the cursors
    cases p with
    | idle =>
      simp only [PushAt.Fits]
      omega
    | holding took got => exact ⟨h.1, hrsz ▸ h.2.1, by omega⟩
    | _ => cases hout

end Stable

end Lanes
