import Lanes.Ring.System

/-!
# Pinning workers to CPUs

`main` sets `global.cpu_available` to the number of CPUs, and every worker takes the value it finds
there and leaves one less. The comment in the source promises a CPU each, as long as there are CPUs.
The code differs from it at both ends:

* the first worker gets the number of CPUs itself, which is no index (`startWorkers_cons`);
* `tx` keeps the value in an `unsigned int`, so that its test for an exhausted counter always
  succeeds, where `rx` keeps it in an `int` and stops.

`Pinned` is the promise and `pinned_iff` says that it is kept for the empty list of workers only.
-/

namespace Lanes

/-- The number of bits of a `cpu_set_t`. -/
def cpuSetSize : Nat := 1024

/-- The mask after `CPU_ZERO` and `CPU_SET (c, &cpuset)`: a bit behind the mask is not set. -/
def cpuSet (c : Nat) : List Nat := if c < cpuSetSize then [c] else []

/-- `__sync_fetch_and_sub (&global.cpu_available, 1)` on an `int`: the value it leaves. -/
def fetchAndSub (cpuAvailable : Int) : Int := Int.bmod (cpuAvailable - 1) (2 ^ 32)

/-- The start of `tx`: the counter it leaves, and the mask it passes to `pthread_setaffinity_np`
if it calls it. -/
def txPin (cpuAvailable : Int) : Int × Option (List Nat) :=
  let c := (cpuAvailable % 2 ^ 32).toNat
  -- `c >= 0` on an `unsigned int`
  (fetchAndSub cpuAvailable, if 0 ≤ c then some (cpuSet c) else none)

/-- The start of `rx`. -/
def rxPin (cpuAvailable : Int) : Int × Option (List Nat) :=
  let i := cpuAvailable
  (fetchAndSub cpuAvailable, if 0 ≤ i then some (cpuSet i.toNat) else none)

def pin : Dir → Int → Int × Option (List Nat)
  | .egress => txPin
  | .ingress => rxPin

/-- What the workers do that reach the counter one after the other. -/
def startWorkers : Int → List Dir → List (Option (List Nat))
  | _, [] => []
  | cpuAvailable, d :: workers =>
    let (cpuAvailable, mask) := pin d cpuAvailable
    mask :: startWorkers cpuAvailable workers

/-- Each worker that sets its affinity names one CPU below `n`, no two name the same one, and as
many set it as there are CPUs for them. -/
structure Pinned (n : Nat) (masks : List (Option (List Nat))) : Prop where
  one : ∀ mask, some mask ∈ masks → ∃ c < n, mask = [c]
  distinct : masks.Pairwise fun a b => ∀ ma mb, a = some ma → b = some mb → ma.Disjoint mb
  count : (masks.filter Option.isSome).length = min n masks.length

section Pin

variable {n : Nat}

/-! ## The first worker

The counter holds the number of CPUs when the first worker fetches it, and both kinds of worker take
what they fetch for an index. -/

/-- The first worker, of either kind, gets the number of CPUs for an index. -/
theorem startWorkers_cons (hn : n < 2 ^ 31) (d : Dir) (workers : List Dir) :
    ∃ rest, startWorkers n (d :: workers) = some (cpuSet n) :: rest := by
  refine ⟨startWorkers (fetchAndSub n) workers, ?_⟩
  cases d with
  | egress =>
    have hc : ((n : Int) % 2 ^ 32).toNat = n := by omega
    simp only [startWorkers, pin, txPin, hc, Nat.zero_le, if_true]
  | ingress =>
    have hi : (0 : Int) ≤ n := by omega
    simp only [startWorkers, pin, rxPin, hi, if_true, Int.toNat_natCast]

/-- **CPU pinning.** The workers are pinned as meant only if there are none of them: the first one
asks for a CPU that does not exist. -/
theorem pinned_iff (hn : n < 2 ^ 31) (workers : List Dir) :
    Pinned n (startWorkers n workers) ↔ workers = [] := by
  constructor
  · intro h
    cases workers with
    | nil => rfl
    | cons d workers =>
      obtain ⟨rest, hmasks⟩ := startWorkers_cons hn d workers
      rw [hmasks] at h
      obtain ⟨c, hlt, hmask⟩ := h.one _ (List.mem_cons_self ..)
      unfold cpuSet at hmask
      -- the index is `n`, or behind the mask and then no CPU at all
      split at hmask
      · have hc : n = c := List.head_eq_of_cons_eq hmask
        omega
      · cases hmask
  · rintro rfl
    exact ⟨fun _ h => (List.not_mem_nil h).elim, List.Pairwise.nil, (Nat.min_zero n).symm⟩

theorem pinned_iff_four :
    Pinned 4 (startWorkers 4 []) ∧ ¬ Pinned 4 (startWorkers 4 [.egress, .ingress]) :=
  ⟨(pinned_iff (n := 4) (by decide) []).mpr rfl,
    fun h => nomatch (pinned_iff (n := 4) (by decide) [.egress, .ingress]).mp h⟩

/-- On one CPU a single `rx` worker asks for CPU 1. -/
theorem pinned_fails :
    ¬ ∀ (n : Nat) (workers : List Dir), 1 ≤ n → n < 2 ^ 31 → Pinned n (startWorkers n workers) := by
  intro hall
  obtain ⟨c, hlt, hmask⟩ := (hall 1 [.ingress] (by decide) (by decide)).one [1] (by decide)
  cases hmask
  exact absurd hlt (by decide)

end Pin

end Lanes
