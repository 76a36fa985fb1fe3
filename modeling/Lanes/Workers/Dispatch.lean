import Mathlib.Data.List.Nodup
import Mathlib.Data.List.Range
import Mathlib.Tactic.ByContra
import Mathlib.Tactic.Ring
import Lanes.Ring.Basic

/-!
# Which queue the IO threads offer a slot to

`tx_io` advances its queue index before it calls `push`, `rx_io` after it, both with the same
conditional, which lets the index reach `h->qnum`. The index runs through `qnum + 1` values, one of
which is no queue.

The index does not depend on what `push` returns. In closed form it is a number modulo `qnum + 1`
that starts at 0 in `rx_io` and at 1 in `tx_io`, and a run is a round robin over the queues until
the index first gets to `qnum`: after `qnum - 1` iterations of `tx_io`, after `qnum` of `rx_io`.
-/

namespace Lanes

/-- The two threads that fill slots. -/
inductive Io where
  | tx
  | rx
  deriving Repr, DecidableEq

/-- `i = i < h->qnum ? i+1 : 0`. -/
def nextQueue (qnum i : Nat) : Nat := if i < qnum then inc32 i else 0

/-- The indices that the loop of `tx_io` passes to `push`, one iteration for each result. -/
def txIoOffers (qnum : Nat) : Nat → List Ret → List Nat
  | _, [] => []
  | i, _ :: rets =>
    let i := nextQueue qnum i
    i :: txIoOffers qnum i rets

/-- The indices that the loop of `rx_io` passes to `push`. -/
def rxIoOffers (qnum : Nat) : Nat → List Ret → List Nat
  | _, [] => []
  | i, _ :: rets => i :: rxIoOffers qnum (nextQueue qnum i) rets

/-- The indices of a run from the start of the thread, where `i` is 0. -/
def Io.offers (io : Io) (qnum : Nat) (rets : List Ret) : List Nat :=
  match io with
  | .tx => txIoOffers qnum 0 rets
  | .rx => rxIoOffers qnum 0 rets

/-- Every index is that of a queue, and any `qnum` consecutive ones name every queue once. -/
def RoundRobin (qnum : Nat) (offers : List Nat) : Prop :=
  (∀ i ∈ offers, i < qnum) ∧
    ∀ before window after, offers = before ++ window ++ after → window.length = qnum →
      ∀ j < qnum, window.count j = 1

/-! ## The index in closed form

By induction on the iterations. `qnum` is an `int`, so below `2 ^ 31` the increment does not wrap.
-/

section Closed

variable {qnum i : Nat}

theorem nextQueue_eq (hi : i ≤ qnum) (hb : qnum < 2 ^ 31) :
    nextQueue qnum i = (i + 1) % (qnum + 1) := by
  unfold nextQueue
  split
  · rename_i hlt
    rw [inc32_of_lt hlt (by omega), Nat.mod_eq_of_lt (by omega)]
  · rw [show i = qnum by omega, Nat.mod_self]

theorem nextQueue_le (hi : i ≤ qnum) (hb : qnum < 2 ^ 31) : nextQueue qnum i ≤ qnum := by
  rw [nextQueue_eq hi hb]
  exact Nat.lt_succ_iff.mp (Nat.mod_lt _ (Nat.succ_pos qnum))

theorem rxIoOffers_eq (hi : i ≤ qnum) (hb : qnum < 2 ^ 31) (rets : List Ret) :
    rxIoOffers qnum i rets = (List.range rets.length).map fun t => (i + t) % (qnum + 1) := by
  induction rets generalizing i with
  | nil => rfl
  | cons ret rets ih =>
    have hhead : i = (i + 0) % (qnum + 1) := (Nat.mod_eq_of_lt (by omega)).symm
    rw [rxIoOffers, ih (nextQueue_le hi hb), List.length_cons, List.range_succ_eq_map,
      List.map_cons, ← hhead, List.map_map]
    refine congrArg (i :: ·) (List.map_congr_left fun t _ => ?_)
    show (nextQueue qnum i + t) % (qnum + 1) = (i + (t + 1)) % (qnum + 1)
    rw [nextQueue_eq hi hb, Nat.mod_add_mod, Nat.add_assoc, Nat.add_comm 1 t]

/-- `tx_io` is one step ahead of `rx_io`. -/
theorem txIoOffers_eq (rets : List Ret) :
    txIoOffers qnum i rets = rxIoOffers qnum (nextQueue qnum i) rets := by
  induction rets generalizing i with
  | nil => rfl
  | cons ret rets ih => rw [txIoOffers, rxIoOffers, ih]

end Closed

/-- The index of the first iteration. -/
def Io.first : Io → Nat
  | .tx => 1
  | .rx => 0

theorem Io.offers_eq {qnum : Nat} (io : Io) (hq : 1 ≤ qnum) (hb : qnum < 2 ^ 31) (rets : List Ret) :
    io.offers qnum rets =
      (List.range rets.length).map fun t => (io.first + t) % (qnum + 1) := by
  cases io with
  | tx =>
    have hfirst : nextQueue qnum 0 = 1 := by
      rw [nextQueue_eq (Nat.zero_le _) hb, Nat.mod_eq_of_lt (by omega)]
    show txIoOffers qnum 0 rets = _
    rw [txIoOffers_eq, hfirst]
    exact rxIoOffers_eq hq hb rets
  | rx => exact rxIoOffers_eq (Nat.zero_le _) hb rets

/-! ## How long the dispatch is a round robin

While the index stays below `qnum` the modulus is not seen, and the indices are consecutive numbers.
-/

/-- Up to `n` indices from 0 on a full round is the whole list. -/
theorem roundRobin_range {n k : Nat} (hk : k ≤ n) : RoundRobin n (List.range k) := by
  refine ⟨fun i hi => by
    have := List.mem_range.mp hi
    omega, ?_⟩
  intro before window after hsplit hlen j hj
  have hlens := congrArg List.length hsplit
  simp only [List.length_range, List.length_append] at hlens
  have hbefore : before = [] := List.eq_nil_of_length_eq_zero (by omega)
  have hafter : after = [] := List.eq_nil_of_length_eq_zero (by omega)
  subst hbefore hafter
  have hwindow : window = List.range n := by
    rw [List.nil_append, List.append_nil] at hsplit
    rw [← hsplit, show k = n by omega]
  rw [hwindow]
  exact List.count_eq_one_of_mem List.nodup_range (List.mem_range.mpr hj)

/-- **Round robin.** A run dispatches in turn exactly until its index gets to `qnum`: up to
`qnum - 1` iterations of `tx_io`, up to `qnum` of `rx_io`. -/
theorem roundRobin_iff {qnum : Nat} (io : Io) (hq : 1 ≤ qnum) (hb : qnum < 2 ^ 31)
    (rets : List Ret) : RoundRobin qnum (io.offers qnum rets) ↔ io.first + rets.length ≤ qnum := by
  have hoffers := io.offers_eq hq hb rets
  have hfirst : io.first ≤ 1 := by cases io <;> decide
  constructor
  · rintro ⟨hin, -⟩
    by_contra hlong
    -- iteration `qnum - first` passes `qnum` itself
    have hmem : qnum ∈ io.offers qnum rets := by
      rw [hoffers]
      refine List.mem_map.mpr ⟨qnum - io.first, List.mem_range.mpr (by omega), ?_⟩
      rw [show io.first + (qnum - io.first) = qnum by omega]
      exact Nat.mod_eq_of_lt (Nat.lt_succ_self qnum)
    exact Nat.lt_irrefl _ (hin qnum hmem)
  · intro hshort
    have hplain : io.offers qnum rets = (List.range rets.length).map fun t => io.first + t := by
      rw [hoffers]
      refine List.map_congr_left fun t ht => Nat.mod_eq_of_lt ?_
      have := List.mem_range.mp ht
      omega
    rw [hplain]
    cases io with
    | tx =>
      have hlt : rets.length + 1 ≤ qnum := by
        have : Io.tx.first = 1 := rfl
        omega
      refine ⟨fun i hi => ?_, fun before window after hsplit hlen => ?_⟩
      · obtain ⟨t, ht, rfl⟩ := List.mem_map.mp hi
        have := List.mem_range.mp ht
        show 1 + t < qnum
        omega
      · -- the run is too short for a full round
        have hlens := congrArg List.length hsplit
        simp only [List.length_map, List.length_range, List.length_append] at hlens
        omega
    | rx =>
      have hid : ((List.range rets.length).map fun t => Io.rx.first + t) =
          List.range rets.length := by
        refine (List.map_congr_left fun t _ => ?_).trans (List.map_id _)
        exact Nat.zero_add t
      rw [hid]
      exact roundRobin_range (by
        have : Io.rx.first = 0 := rfl
        omega)

theorem roundRobin_oneRound : RoundRobin 2 (Io.rx.offers 2 [.null, .null]) :=
  (roundRobin_iff .rx (by decide) (by decide) [.null, .null]).mpr (by decide)

/-- With one queue the first iteration of `tx_io` passes index 1. -/
theorem roundRobin_fails :
    ¬ ∀ (io : Io) (qnum : Nat) (rets : List Ret), 1 ≤ qnum → qnum < 2 ^ 31 →
      RoundRobin qnum (io.offers qnum rets) := by
  intro hall
  have := (hall .tx 1 [.null] (by decide) (by decide)).1 1 (by decide)
  omega

end Lanes
