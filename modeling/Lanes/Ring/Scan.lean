import Mathlib.Data.Nat.Find
import Lanes.Ring.Ownership

/-!
# The slot search, for every pattern of locks

`Ownership` gives the scans of `push` and `pop` a closed form in states where two slots at most are
locked. Here nothing is assumed of the locks. The scan of `push` walks from `in` up to the end of
the array and does not wrap; the scan of `pop` wraps, but starts at slot 0 when `out` stands on the
last slot, and its return expression reads the slot behind the one it took.

## Main results

* **`searchSafe_iff`**: exactly when a search takes the first free slot after its cursor without an
  access outside the array.
* **`failedPushKeeps_iff`**: exactly when a push that fails leaves the ring as it was, but for the
  `full` flag.

Both rest on two closed forms: `push_ahead` and `push_none` for the search of `push`, `pop_first`
for the search of `pop`.
-/

namespace Lanes

/-! ## The first free slot

`FirstFree` counts around the ring, as a search should; `FirstAhead` counts up to the end of the
array only, as the search of `push` does. -/

/-- Slot `i` is the first unlocked one at or cyclically after the cursor `c`. -/
def FirstFree (q : Q) (c i : Nat) : Prop :=
  ∃ k, i = (c + k) % q.rsz ∧ (q.R i).lock = false ∧
    ∀ j < k, (q.R ((c + j) % q.rsz)).lock = true

/-- Slot `i` is the first unlocked one from the cursor `c` to the end of the array. -/
structure FirstAhead (q : Q) (c i : Nat) : Prop where
  le : c ≤ i
  lt : i < q.rsz
  free : (q.R i).lock = false
  locked : ∀ j, c ≤ j → j < i → (q.R j).lock = true

section FirstFree

variable {q : Q} {c i j : Nat}

theorem FirstFree.unlocked (h : FirstFree q c i) : (q.R i).lock = false := by
  obtain ⟨k, -, hfree, -⟩ := h
  exact hfree

theorem FirstFree.unique (hi : FirstFree q c i) (hj : FirstFree q c j) : i = j := by
  obtain ⟨k, rfl, hk, hbefore⟩ := hi
  obtain ⟨m, rfl, hm, hbefore'⟩ := hj
  rcases Nat.lt_trichotomy k m with hlt | heq | hgt
  · rw [hbefore' k hlt] at hk
    cases hk
  · rw [heq]
  · rw [hbefore m hgt] at hm
    cases hm

/-- Some place after any cursor is a given slot. -/
theorem exists_place (c : Nat) (hi : i < q.rsz) : ∃ k, (c + k) % q.rsz = i := by
  have hle : c ≤ c * q.rsz := Nat.le_mul_of_pos_right c (by omega)
  refine ⟨c * q.rsz - c + i, ?_⟩
  rw [show c + (c * q.rsz - c + i) = i + c * q.rsz by omega, Nat.add_mul_mod_self_right]
  exact Nat.mod_eq_of_lt hi

theorem firstFree_exists (c : Nat) (h : ∃ i < q.rsz, (q.R i).lock = false) :
    ∃ i, FirstFree q c i := by
  obtain ⟨i, hi, hfree⟩ := h
  have hsome : ∃ k, (q.R ((c + k) % q.rsz)).lock = false := by
    obtain ⟨k, hk⟩ := exists_place c hi
    exact ⟨k, by rw [hk]; exact hfree⟩
  refine ⟨_, Nat.find hsome, rfl, Nat.find_spec hsome, fun j hj => ?_⟩
  simpa using Nat.find_min hsome hj

/-- The first free slot is less than one turn away. -/
theorem firstFree_within (hr : 0 < q.rsz) {k : Nat} (hfree : (q.R ((c + k) % q.rsz)).lock = false)
    (hbefore : ∀ j < k, (q.R ((c + j) % q.rsz)).lock = true) : k < q.rsz := by
  by_contra hge
  have hlocked := hbefore (k - q.rsz) (by omega)
  rw [show c + k = c + (k - q.rsz) + q.rsz by omega, Nat.add_mod_right, hlocked] at hfree
  cases hfree

/-- Cursors that differ by full turns search alike. -/
theorem FirstFree.congr_mod {c' : Nat} (h : FirstFree q c i) (hc : c % q.rsz = c' % q.rsz) :
    FirstFree q c' i := by
  have hplace : ∀ j, (c + j) % q.rsz = (c' + j) % q.rsz := fun j => by
    rw [Nat.add_mod, hc, ← Nat.add_mod]
  obtain ⟨k, hi, hfree, hbefore⟩ := h
  refine ⟨k, by rw [hi, hplace], hfree, fun j hj => ?_⟩
  rw [← hplace]
  exact hbefore j hj

/-- A search that does not stop at its cursor goes on behind it. -/
theorem FirstFree.succ (h : FirstFree q c i) (hne : i ≠ c % q.rsz) : FirstFree q (c + 1) i := by
  obtain ⟨k, hi, hfree, hbefore⟩ := h
  obtain ⟨m, rfl⟩ : ∃ m, k = m + 1 := by
    refine Nat.exists_eq_succ_of_ne_zero fun h0 => hne ?_
    rw [hi, h0, Nat.add_zero]
  refine ⟨m, by rw [hi, Nat.add_assoc c 1 m, Nat.add_comm 1 m], hfree, fun j hj => ?_⟩
  rw [Nat.add_assoc c 1 j, Nat.add_comm 1 j]
  exact hbefore (j + 1) (by omega)

/-- Without a wrap the first free slot ahead is the first free slot. -/
theorem FirstAhead.firstFree (h : FirstAhead q c i) : FirstFree q c i := by
  have hle := h.le
  have hlt := h.lt
  refine ⟨i - c, ?_, h.free, fun j hj => ?_⟩
  · rw [show c + (i - c) = i by omega]
    exact (Nat.mod_eq_of_lt hlt).symm
  · rw [Nat.mod_eq_of_lt (by omega)]
    exact h.locked _ (by omega) (by omega)

theorem FirstAhead.unique (hi : FirstAhead q c i) (hj : FirstAhead q c j) : i = j :=
  hi.firstFree.unique hj.firstFree

/-- A free slot ahead of the cursor has a first one before it. -/
theorem firstAhead_exists (hle : c ≤ i) (hi : i < q.rsz) (hfree : (q.R i).lock = false) :
    ∃ j, FirstAhead q c j := by
  have hsome : ∃ k, (q.R (c + k)).lock = false := ⟨i - c, by rwa [show c + (i - c) = i by omega]⟩
  have hmin : Nat.find hsome ≤ i - c :=
    Nat.find_min' hsome (by rwa [show c + (i - c) = i by omega])
  refine ⟨c + Nat.find hsome, by omega, by omega, Nat.find_spec hsome, fun j hcj hj => ?_⟩
  have := Nat.find_min hsome (m := j - c) (by omega)
  rw [show c + (j - c) = j by omega] at this
  simpa using this

end FirstFree

/-! ## The scan of `push`

The wrap stands before the increment and tests the index that was just found locked, so it never
applies. A search that finds nothing ahead runs into `q->R[q->rsz]`. -/

section Push

variable {q : Q} {i : Nat}

/-- The scan of `push` stops at the first free slot ahead of `in`. -/
theorem pushScan_ahead {n : Nat} (hb : q.rsz < 2 ^ 32) (h : FirstAhead q q.inIdx i)
    (hn : i < q.inIdx + n) : pushScan n q = .ok ({ q with inIdx := i }.lockSlot i) := by
  have hlt := h.lt
  -- one locked slot is stepped over at a time, so the induction is on the slots in between
  induction n generalizing q with
  | zero =>
    have := h.le
    omega
  | succ n ih =>
    by_cases he : q.inIdx = i
    · subst he
      exact pushScan_free hlt h.free
    · have hle : q.inIdx + 1 ≤ i := by
        have := h.le
        omega
      have hl : (q.R q.inIdx).lock = true := h.locked _ (Nat.le_refl _) hle
      rw [pushScan_locked (by omega) hb hl]
      refine ih (q := { q with inIdx := q.inIdx + 1 }) hb ?_ ?_ hlt
      · exact ⟨hle, hlt, h.free, fun j hj hji => h.locked j (Nat.le_of_succ_le hj) hji⟩
      · show i < q.inIdx + 1 + n
        omega

/-- With every slot from `in` on locked, the scan of `push` runs out of the array. -/
theorem pushScan_none {n : Nat} (hb : q.rsz < 2 ^ 32) (hin : q.inIdx ≤ q.rsz)
    (h : ∀ j, q.inIdx ≤ j → j < q.rsz → (q.R j).lock = true) (hn : q.rsz < q.inIdx + n) :
    pushScan n q = .error (.outOfBounds q.rsz) := by
  -- the source wraps `in` only when it is past the end, so each locked slot is a step towards it
  induction n generalizing q with
  | zero => omega
  | succ n ih =>
    by_cases he : q.inIdx = q.rsz
    · have hnot : ¬ q.inIdx < q.rsz := by omega
      rw [pushScan, if_neg hnot, he]
    · have hlt : q.inIdx < q.rsz := by omega
      have hl := h q.inIdx (Nat.le_refl _) hlt
      have hnot : ¬ q.inIdx ≥ q.rsz := by omega
      simp only [pushScan, if_pos hlt, hl, if_true, if_neg hnot, inc32_of_lt hlt hb]
      refine ih (q := { q with inIdx := q.inIdx + 1 }) hb ?_ ?_ ?_
      · show q.inIdx + 1 ≤ q.rsz
        omega
      · intro j hj hjr
        exact h j (Nat.le_of_succ_le hj) hjr
      · show q.rsz < q.inIdx + 1 + n
        omega

/-- What `push` tests once it holds slot `i`. -/
def RefusesAt (q : Q) (i : Nat) : Prop := q.rsz - 1 ≤ q.sz ∨ i = dec32 q.outIdx

instance (q : Q) (i : Nat) : Decidable (RefusesAt q i) := inferInstanceAs (Decidable (_ ∨ _))

theorem push_lockfail (h : q.lock = true) : push q = .ok (q, .lockfail) := by
  simp [push, Lanes.pushLocked, h, bind, Except.bind]

/-- `push` with a free slot ahead of `in`, whatever the other locks are. -/
theorem push_ahead (hfree : q.lock = false) (hb : q.rsz < 2 ^ 32) (h : FirstAhead q q.inIdx i) :
    push q = .ok (if RefusesAt q i then ({ q with inIdx := i, full := true }, .null)
      else ({ q with inIdx := i }.lockSlot i, .slot i)) := by
  have hlt := h.lt
  have hnot : ¬ i ≥ q.rsz := by omega
  have hdec : dec32 q.rsz = q.rsz - 1 := dec32_of_pos (by omega)
  have hscan : Lanes.pushScan (q.rsz + 1) { q with lock := true } =
      .ok ({ q with lock := true, inIdx := i }.lockSlot i) :=
    pushScan_ahead (q := { q with lock := true }) hb ⟨h.le, hlt, h.free, h.locked⟩
      (show i < q.inIdx + (q.rsz + 1) by omega)
  unfold push Lanes.pushLocked
  simp only [hfree, Bool.false_eq_true, if_false, hscan]
  simp only [bind, Except.bind, Q.lockSlot_inIdx, Q.lockSlot_rsz, hnot, if_false, hdec,
    Q.lockSlot_sz, Q.lockSlot_outIdx]
  by_cases hfull : RefusesAt q i
  · have hfull' : q.sz ≥ q.rsz - 1 ∨ i = dec32 q.outIdx := hfull
    have hun := Q.unlockSlot_lockSlot { q with inIdx := i, full := true } i h.free
    rw [if_pos hfull, if_pos hfull']
    refine congrArg (fun q' => Except.ok (q', Ret.null)) ?_
    calc _ = ({ q with inIdx := i, full := true }.lockSlot i).unlockSlot i := by
          simp [Q.lockSlot, Q.unlockSlot, hfree]
      _ = { q with inIdx := i, full := true } := hun
      _ = _ := by rw [hfree]
  · have hfull' : ¬ (q.sz ≥ q.rsz - 1 ∨ i = dec32 q.outIdx) := hfull
    rw [if_neg hfull, if_neg hfull']
    simp [pushReturn, Q.lockSlot]

theorem push_none (hfree : q.lock = false) (hb : q.rsz < 2 ^ 32) (hin : q.inIdx < q.rsz)
    (h : ∀ j, q.inIdx ≤ j → j < q.rsz → (q.R j).lock = true) :
    push q = .error (.outOfBounds q.rsz) := by
  have hscan : Lanes.pushScan (q.rsz + 1) { q with lock := true } =
      .error (.outOfBounds q.rsz) :=
    pushScan_none (q := { q with lock := true }) hb (Nat.le_of_lt hin) h
      (show q.rsz < q.inIdx + (q.rsz + 1) by omega)
  simp [push, Lanes.pushLocked, hfree, hscan, bind, Except.bind]

end Push

/-! ## The scan of `pop`

The wrap is an `else` of the increment here, so the scan goes around. Its two edges are the test at
the entry, which starts over at slot 0 from the last slot, and the prefetch at the exit. -/

section Pop

variable {q : Q} {i : Nat}

/-- The scan of `pop` stops at the first free slot at or cyclically after `out`. -/
theorem popScan_first {n k : Nat} (hb : q.rsz < 2 ^ 32) (hsz : 0 < q.sz) (hout : q.outIdx < q.rsz)
    (hfree : (q.R ((q.outIdx + k) % q.rsz)).lock = false)
    (hbefore : ∀ j < k, (q.R ((q.outIdx + j) % q.rsz)).lock = true) (hn : k < n) :
    popScan n q = .ok ({ q with outIdx := (q.outIdx + k) % q.rsz }.lockSlot
      ((q.outIdx + k) % q.rsz)) := by
  induction n generalizing q k with
  | zero => omega
  | succ n ih =>
    have hhere : (q.outIdx + 0) % q.rsz = q.outIdx := Nat.mod_eq_of_lt hout
    cases k with
    | zero =>
      rw [hhere] at hfree ⊢
      exact popScan_free hsz hout hfree
    | succ k =>
      have hl := hbefore 0 (by omega)
      rw [hhere] at hl
      -- the wrap of the source is the successor modulo the ring size
      have hnext : (if q.outIdx ≥ dec32 q.rsz then 0 else inc32 q.outIdx) =
          (q.outIdx + 1) % q.rsz := by
        rw [dec32_of_pos (by omega), inc32_of_lt hout hb]
        split
        · rw [show q.outIdx + 1 = q.rsz by omega, Nat.mod_self]
        · exact (Nat.mod_eq_of_lt (by omega)).symm
      have hplace : ∀ j, ((q.outIdx + 1) % q.rsz + j) % q.rsz = (q.outIdx + (j + 1)) % q.rsz :=
        fun j => by rw [Nat.mod_add_mod, Nat.add_assoc, Nat.add_comm 1 j]
      have hstep := ih (q := { q with outIdx := (q.outIdx + 1) % q.rsz }) (k := k) hb hsz
        (Nat.mod_lt _ (by omega)) (by rw [hplace]; exact hfree)
        (fun j hj => by rw [hplace]; exact hbefore (j + 1) (by omega)) (by omega)
      rw [hplace] at hstep
      simp only [popScan, gt_iff_lt, hsz, hout, hl, if_true, hnext]
      exact hstep

theorem pop_lockfail (h : q.lock = true) : pop q = .ok (q, .lockfail) := by
  simp [pop, Lanes.popLocked, h, bind, Except.bind]

theorem pop_empty (hfree : q.lock = false) (h : PopEmpty q) :
    pop q = .ok (popReset { q with sz := 0 }, .null) := by
  have h' : q.sz < 1 ∨ q.inIdx = q.outIdx := h
  unfold pop Lanes.popLocked
  simp only [hfree, Bool.false_eq_true, if_false, if_pos h']
  rfl

/-- `pop` with packets counted, whatever the locks are. The return expression takes the slot, and
its prefetch reads the slot behind it. -/
theorem pop_first (hfree : q.lock = false) (hb : q.rsz < 2 ^ 32) (hne : ¬ PopEmpty q)
    (hr : 0 < q.rsz) (h : FirstFree q (popStart q) i) :
    pop q = if i + 1 < q.rsz then .ok ({ q with outIdx := i + 1 }.lockSlot i, .slot i)
      else .error (.outOfBounds (i + 1)) := by
  have hne' : ¬ (q.sz < 1 ∨ q.inIdx = q.outIdx) := hne
  have hsz : 0 < q.sz := by
    by_contra h0
    exact hne (Or.inl (by omega))
  have hstart : popStart q < q.rsz := by
    unfold popStart
    split <;> omega
  obtain ⟨k, hi, hunlocked, hbefore⟩ := h
  have hlt : i < q.rsz := by
    rw [hi]
    exact Nat.mod_lt _ hr
  have hk : k < q.rsz := firstFree_within hr (by rw [← hi]; exact hunlocked) hbefore
  have hscan : Lanes.popScan (q.rsz + 1) { q with lock := true, outIdx := popStart q } =
      .ok ({ q with lock := true, outIdx := i }.lockSlot i) := by
    rw [hi]
    exact popScan_first (q := { q with lock := true, outIdx := popStart q }) (k := k) hb hsz hstart
      (by rw [← hi]; exact hunlocked) hbefore (show k < q.rsz + 1 by omega)
  have hbegin : (if q.outIdx ≥ q.rsz - 1 then { q with lock := true, outIdx := 0 }
      else { q with lock := true }) = { q with lock := true, outIdx := popStart q } := by
    unfold popStart
    split <;> rfl
  unfold pop Lanes.popLocked
  simp only [hfree, Bool.false_eq_true, if_false, if_neg hne', dec32_of_pos hr, hbegin, hscan]
  simp only [bind, Except.bind, Lanes.popReturn, Q.lockSlot_outIdx, Q.lockSlot_rsz,
    inc32_of_lt hlt hb]
  -- the prefetch of the return expression reads the slot behind
  by_cases hlast : i + 1 < q.rsz
  · simp only [if_pos hlast]
    simp [Q.lockSlot]
  · simp only [if_neg hlast]

/-- The start rule of `pop` misses the first free slot only when that is the last of the ring. -/
theorem FirstFree.popStart (h : FirstFree q q.outIdx i) (hout : q.outIdx ≤ q.rsz) (hr : 0 < q.rsz)
    (hlast : i ≠ q.rsz - 1) : FirstFree q (popStart q) i := by
  unfold Lanes.popStart
  split
  · rename_i hwrap
    by_cases he : q.outIdx = q.rsz
    · exact h.congr_mod (by rw [he, Nat.mod_self, Nat.zero_mod])
    · -- `out` is on the last slot: it is passed over although the search has not looked at it
      have hmod : q.outIdx % q.rsz = q.rsz - 1 := by
        rw [Nat.mod_eq_of_lt (by omega)]
        omega
      refine (h.succ (by rw [hmod]; exact hlast)).congr_mod ?_
      rw [show q.outIdx + 1 = q.rsz by omega, Nat.mod_self, Nat.zero_mod]
  · exact h

end Pop

/-! ## When the search stays inside the ring

`SearchFits` is a condition on the state before the call alone. The search of `push` needs a free
slot at or after `in`. The search of `pop`, where it starts at all, goes wrong only if the slot it
should find is the last one of the ring: it starts past that slot, or takes it and prefetches the
slot behind it. -/

/-- The two calls that search for a slot. -/
inductive Search where
  | push
  | pop
  deriving DecidableEq

/-- The call, run on a ring. -/
def Search.run : Search → Q → Except Fault (Q × Ret)
  | .push => Lanes.push
  | .pop => Lanes.pop

/-- The cursor the search starts from. -/
def Search.cursor : Search → Q → Nat
  | .push => Q.inIdx
  | .pop => Q.outIdx

/-- The search ends without an access outside the ring, and a slot it returns is the first free one
at or cyclically after the cursor, locked by the call. -/
def SearchSafe (c : Search) (q : Q) : Prop :=
  ∃ q' ret, c.run q = .ok (q', ret) ∧ ∀ i, ret = .slot i →
    FirstFree q (c.cursor q) i ∧ (q.R i).lock = false ∧ (q'.R i).lock = true

/-- The search of `push` has a free slot before the end of the array; the first free slot for `pop`
is not the last one of the ring. -/
def SearchFits : Search → Q → Prop
  | .push, q => ∃ j, q.inIdx ≤ j ∧ j < q.rsz ∧ (q.R j).lock = false
  | .pop, q => PopEmpty q ∨ ¬ FirstFree q q.outIdx (q.rsz - 1)

/-- Cursors inside the ring and at least one unlocked slot. -/
structure Searchable (q : Q) : Prop where
  two : 2 ≤ q.rsz
  bound : q.rsz < 2 ^ 32
  in_lt : q.inIdx < q.rsz
  out_le : q.outIdx ≤ q.rsz
  unlocked : ∃ i < q.rsz, (q.R i).lock = false

section Safe

variable {q : Q}

theorem Searchable.push_iff (h : Searchable q) (hfree : q.lock = false) :
    SearchSafe .push q ↔ SearchFits .push q := by
  constructor
  · rintro ⟨q', ret, hrun, -⟩
    by_contra hnone
    have hlocked : ∀ j, q.inIdx ≤ j → j < q.rsz → (q.R j).lock = true := fun j hj hjr => by
      by_contra hl
      exact hnone ⟨j, hj, hjr, by simpa using hl⟩
    rw [show Search.push.run q = push q from rfl, push_none hfree h.bound h.in_lt hlocked] at hrun
    cases hrun
  · rintro ⟨j, hle, hlt, hunlocked⟩
    obtain ⟨i, hi⟩ := firstAhead_exists hle hlt hunlocked
    have hrun : Search.push.run q = _ := push_ahead hfree h.bound hi
    by_cases hfull : RefusesAt q i
    · rw [if_pos hfull] at hrun
      refine ⟨_, _, hrun, fun k hk => ?_⟩
      cases hk
    · rw [if_neg hfull] at hrun
      refine ⟨_, _, hrun, fun k hk => ?_⟩
      cases hk
      exact ⟨hi.firstFree, hi.free, by simp⟩

theorem Searchable.pop_iff (h : Searchable q) (hfree : q.lock = false) :
    SearchSafe .pop q ↔ SearchFits .pop q := by
  have htwo := h.two
  by_cases hne : PopEmpty q
  · refine iff_of_true ⟨_, _, pop_empty hfree hne, ?_⟩ (Or.inl hne)
    intro i hi
    cases hi
  · have hrun : ∀ i, FirstFree q (popStart q) i → Search.pop.run q =
        if i + 1 < q.rsz then .ok ({ q with outIdx := i + 1 }.lockSlot i, .slot i)
        else .error (.outOfBounds (i + 1)) :=
      fun i hi => pop_first hfree h.bound hne (by omega) hi
    constructor
    · rintro ⟨q', ret, hok, hret⟩
      refine Or.inr fun hlast => ?_
      obtain ⟨i, hi⟩ := firstFree_exists (popStart q) h.unlocked
      rw [hrun i hi] at hok
      split at hok
      · -- the call skipped the last slot and came back with another one
        rename_i hlt
        cases hok
        have := (hret i rfl).1.unique hlast
        omega
      · cases hok
    · rintro (he | hlast)
      · exact absurd he hne
      · -- the first free slot is not the last one, so the start rule makes no difference
        obtain ⟨i, hi⟩ := firstFree_exists q.outIdx h.unlocked
        have hil : i ≠ q.rsz - 1 := fun he => hlast (he ▸ hi)
        have hstart := hi.popStart h.out_le (by omega) hil
        have hlt : i < q.rsz := by
          obtain ⟨k, rfl, -⟩ := hi
          exact Nat.mod_lt _ (by omega)
        refine ⟨_, _, (hrun i hstart).trans (if_pos (by omega)), fun k hk => ?_⟩
        cases hk
        exact ⟨hi, hi.unlocked, by simp⟩

end Safe

/-- **Slot search.** The search of a call stays inside the ring and finds the first free slot
exactly when the call cannot take `q->lock` or the search fits. -/
theorem searchSafe_iff {q : Q} (h : Searchable q) (c : Search) :
    SearchSafe c q ↔ q.lock = true ∨ SearchFits c q := by
  cases hl : q.lock with
  | true =>
    refine iff_of_true ?_ (Or.inl rfl)
    cases c with
    | push => exact ⟨q, .lockfail, push_lockfail hl, fun i hi => by cases hi⟩
    | pop => exact ⟨q, .lockfail, pop_lockfail hl, fun i hi => by cases hi⟩
  | false =>
    rw [or_iff_right Bool.false_ne_true]
    cases c with
    | push => exact h.push_iff hl
    | pop => exact h.pop_iff hl

/-- A ring of three slots after two packets went through and a third was committed: `out` stands on
the last slot, which holds the packet. -/
def wrapRing : Q := { emptyRing 3 60 with outIdx := 2, sz := 1 }

theorem wrapRing_searchable : Searchable wrapRing where
  two := by decide
  bound := by decide
  in_lt := by decide
  out_le := by decide
  unlocked := ⟨0, by decide⟩

/-- A ring of four slots that a `pop` found empty and reset while two workers still hold the slots
they took: both cursors are back on slot 0. -/
def heldRing : Q := ((emptyRing 4 60).lockSlot 0).lockSlot 1

/-- `push` steps over the two held slots and returns the third. -/
theorem searchSafe_heldRing : SearchSafe .push heldRing ∧
    (push heldRing).map Prod.snd = .ok (.slot 2) :=
  ⟨(searchSafe_iff ⟨by decide, by decide, by decide, by decide, 2, by decide⟩ .push).mpr
    (Or.inr ⟨2, by decide, by decide, by decide⟩), by decide⟩

/-- `pop` on that ring skips the last slot and returns slot 0. -/
theorem searchSafe_fails : ¬ ∀ (q : Q) (c : Search), Searchable q → SearchSafe c q := by
  intro hall
  obtain ⟨q', ret, hrun, hret⟩ := hall wrapRing .pop wrapRing_searchable
  have hlast : FirstFree wrapRing 2 2 := ⟨0, by decide, by decide, by simp⟩
  have hslot : ret = .slot 0 := by
    have hmap : (Search.pop.run wrapRing).map Prod.snd = .ok ret := by rw [hrun]; rfl
    exact (Except.ok.inj ((show (Search.pop.run wrapRing).map Prod.snd = .ok (.slot 0) by
      decide).symm.trans hmap)).symm
  have := (hret 0 hslot).1.unique hlast
  omega

/-! ## A refused push

Where the ring is full `push` unlocks the slot that its scan locked. What it does not undo is the
cursor, which the scan moved to that slot. -/

/-- The call comes back, and if it failed the ring is as before but for the `full` flag. -/
def FailedPushKeeps (q : Q) : Prop :=
  ∃ q' ret, push q = .ok (q', ret) ∧
    (ret = .lockfail ∨ ret = .null → { q' with full := q.full } = q)

/-- `push` finds `q->lock` taken, or the slot under `in` free, or it accepts the first free slot
ahead of `in`. -/
def PushKeeps (q : Q) : Prop :=
  q.lock = true ∨ (q.R q.inIdx).lock = false ∨ ∃ i, FirstAhead q q.inIdx i ∧ ¬ RefusesAt q i

/-- **A failed push changes nothing** exactly when its scan does not move `in` before the ring is
found full: the undo unlocks the slot, and leaves the cursor where the scan put it. -/
theorem failedPushKeeps_iff {q : Q} (hin : q.inIdx < q.rsz) (hb : q.rsz < 2 ^ 32) :
    FailedPushKeeps q ↔ PushKeeps q := by
  cases hl : q.lock with
  | true => exact iff_of_true ⟨q, .lockfail, push_lockfail hl, fun _ => rfl⟩ (Or.inl hl)
  | false =>
    by_cases hsome : ∃ i, FirstAhead q q.inIdx i
    · obtain ⟨i, hi⟩ := hsome
      have hrun := push_ahead hl hb hi
      by_cases hfull : RefusesAt q i
      · -- refused: what is left of the call is the cursor
        rw [if_pos hfull] at hrun
        constructor
        · rintro ⟨q', ret, hok, hkeep⟩
          rw [hrun] at hok
          cases hok
          have hcur : i = q.inIdx := congrArg Q.inIdx (hkeep (Or.inr rfl))
          exact Or.inr (Or.inl (hcur ▸ hi.free))
        · rintro (hlock | hfree | ⟨j, hj, hnot⟩)
          · rw [hl] at hlock
            cases hlock
          · have hcur : q.inIdx = i := FirstAhead.unique
              ⟨Nat.le_refl _, hin, hfree, fun j hj hji => by omega⟩ hi
            refine ⟨_, _, hrun, fun _ => ?_⟩
            rw [← hcur]
          · exact absurd (hj.unique hi ▸ hfull) hnot
      · rw [if_neg hfull] at hrun
        refine iff_of_true ⟨_, _, hrun, ?_⟩ (Or.inr (Or.inr ⟨i, hi, hfull⟩))
        rintro (h | h) <;> cases h
    · -- every slot from `in` on is locked: the scan leaves the array
      have hlocked : ∀ j, q.inIdx ≤ j → j < q.rsz → (q.R j).lock = true := fun j hj hjr => by
        by_contra hfree
        exact hsome (firstAhead_exists hj hjr (by simpa using hfree))
      refine iff_of_false ?_ ?_
      · rintro ⟨q', ret, hok, -⟩
        rw [push_none hl hb hin hlocked] at hok
        cases hok
      · rintro (hlock | hfree | ⟨j, hj, -⟩)
        · rw [hl] at hlock
          cases hlock
        · rw [hlocked _ (Nat.le_refl _) hin] at hfree
          cases hfree
        · exact hsome ⟨j, hj⟩

/-- A ring of three slots in its second lap: `pop` wrapped over slot 2 twice, and the worker holds
slot 0, which is also under `in`. -/
def lappedRing : Q := { (emptyRing 3 60).lockSlot 0 with outIdx := 1, sz := 2 }

/-- A ring of three slots that is full, with the slot under `in` free. -/
def fullRing : Q := { emptyRing 3 60 with inIdx := 2, sz := 2 }

/-- The push on it is refused, and leaves the ring as it was. -/
theorem failedPushKeeps_fullRing : FailedPushKeeps fullRing ∧
    (push fullRing).map Prod.snd = .ok .null ∧ RefusesAt fullRing 2 :=
  ⟨(failedPushKeeps_iff (by decide) (by decide)).mpr (Or.inr (Or.inl rfl)), by decide, by decide⟩

/-- The refused push steps over slot 0 and leaves `in` at 1. -/
theorem failedPushKeeps_fails :
    ¬ ∀ q : Q, q.inIdx < q.rsz → (∃ i < q.rsz, (q.R i).lock = false) → FailedPushKeeps q := by
  intro hall
  obtain ⟨q', ret, hrun, hkeep⟩ := hall lappedRing (by decide) ⟨1, by decide⟩
  have hmap : (push lappedRing).map (fun r => (r.1.inIdx, r.2)) = .ok (q'.inIdx, ret) := by
    rw [hrun]
    rfl
  rw [show (push lappedRing).map (fun r => (r.1.inIdx, r.2)) = .ok (1, .null) by decide] at hmap
  obtain ⟨hin, hret⟩ := Prod.mk.inj (Except.ok.inj hmap)
  have hsame : q'.inIdx = 0 := congrArg Q.inIdx (hkeep (Or.inr hret.symm))
  omega

end Lanes
