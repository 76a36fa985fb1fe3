import Mathlib.Data.List.Basic
import Mathlib.Data.List.Nodup
import Mathlib.Logic.Function.Basic

/-!
# Circular doubly linked lists

Nodes point to their neighbours; `none` is the null pointer. A list is a node, its head, from which
the other nodes are reached in both directions. `add` inserts a node right after the head, so a walk
from the head against the direction of insertion meets the nodes in the order they were added.
-/

namespace Dlist

/-- The pointers of every node. -/
structure Links (ν : Type*) where
  next : ν → Option ν
  prev : ν → Option ν

variable {ν : Type*} [DecidableEq ν]

namespace Links

/-- Make `h` the head of an empty list. -/
def init (L : Links ν) (h : ν) : Links ν where
  next := Function.update L.next h (some h)
  prev := Function.update L.prev h (some h)

/-- Put `x` between `p` and `n`. -/
def insert (L : Links ν) (x p n : ν) : Links ν where
  next := Function.update (Function.update L.next x (some n)) p (some x)
  prev := Function.update (Function.update L.prev n (some x)) x (some p)

/-- Put `x` right after the head `h`; nothing happens at a head that was not initialised. -/
def add (L : Links ν) (x h : ν) : Links ν :=
  match L.next h with
  | some n => L.insert x h n
  | none => L

end Links

/-- Follow `f` back to `h`, at most `n` steps; `none` is a null pointer met, or no end in sight. -/
def follow (f : ν → Option ν) (h : ν) : Nat → Option ν → Option (List ν)
  | 0, _ => none
  | _ + 1, none => none
  | n + 1, some x => if x = h then some [] else (follow f h n (f x)).map (x :: ·)

/-- The nodes that a walk against the list's direction visits. -/
def Links.forEachPrev (L : Links ν) (h : ν) (n : Nat) : Option (List ν) :=
  follow L.prev h n (L.prev h)

/-! ## Paths

A path says which nodes a pointer leads through, `follow` computes them. The path has no bound on
its length; `follow` has one, which is how a walk that never comes back is told from one that does.
-/

/-- `f` leads from `a` through the nodes of `l` to `b`. -/
def Path (f : ν → Option ν) : ν → List ν → ν → Prop
  | a, [], b => f a = some b
  | a, x :: l, b => f a = some x ∧ Path f x l b

section Path

variable {f g : ν → Option ν} {a b x h : ν} {l : List ν}

omit [DecidableEq ν] in
theorem Path.congr (hp : Path f a l b) (hfg : ∀ c ∈ a :: l, g c = f c) : Path g a l b := by
  induction l generalizing a with
  | nil =>
    rw [Path, hfg a (by simp)]
    exact hp
  | cons x l ih =>
    refine ⟨?_, ih hp.2 fun c hc => hfg c (List.mem_cons_of_mem _ hc)⟩
    rw [hfg a (by simp)]
    exact hp.1

omit [DecidableEq ν] in
theorem path_concat : Path f a (l ++ [x]) b ↔ Path f a l x ∧ f x = some b := by
  induction l generalizing a with
  | nil => rfl
  | cons y l ih => simp only [List.cons_append, Path, ih, and_assoc]

/-- A null pointer ends no walk. -/
@[simp] theorem follow_none (f : ν → Option ν) (h : ν) (n : Nat) : follow f h n none = none := by
  cases n <;> rfl

/-- A walk that ends visits the same nodes under every bound. -/
theorem follow_unique {n m : Nat} {a : Option ν} {l l' : List ν} (hl : follow f h n a = some l)
    (hl' : follow f h m a = some l') : l = l' := by
  induction n generalizing m a l l' with
  | zero => cases hl
  | succ n ih =>
    cases m with
    | zero => cases hl'
    | succ m =>
      cases a with
      | none => cases hl
      | some x =>
        by_cases hx : x = h
        · rw [follow, if_pos hx] at hl hl'
          exact Option.some.inj (hl.symm.trans hl')
        · rw [follow, if_neg hx] at hl hl'
          obtain ⟨t, ht, rfl⟩ := Option.map_eq_some_iff.mp hl
          obtain ⟨t', ht', rfl⟩ := Option.map_eq_some_iff.mp hl'
          rw [ih ht ht']

theorem follow_of_path {n : Nat} (hp : Path f a l h) (hh : h ∉ l) (hn : l.length < n) :
    follow f h n (f a) = some l := by
  induction l generalizing a n with
  | nil =>
    obtain ⟨n, rfl⟩ := Nat.exists_eq_add_of_lt hn
    rw [show f a = some h from hp]
    simp [follow]
  | cons x l ih =>
    obtain ⟨hx, hrest⟩ := hp
    rw [List.mem_cons, not_or] at hh
    cases n with
    | zero => omega
    | succ n =>
      rw [hx, follow, if_neg (Ne.symm hh.1), ih hrest hh.2 (by simpa using hn)]
      rfl

end Path

/-! ## Circular lists

The invariant of a list: the same nodes in both directions, each once. `add` keeps it, with the new
node in front.
-/

/-- `l` are the nodes after the head `h`, and both directions come back to `h`. -/
structure Circular (L : Links ν) (h : ν) (l : List ν) : Prop where
  nodup : (h :: l).Nodup
  next : Path L.next h l h
  prev : Path L.prev h l.reverse h

section Circular

variable {L : Links ν} {h x : ν} {l : List ν}

theorem circular_init (L : Links ν) (h : ν) : Circular (L.init h) h [] where
  nodup := by simp
  next := Function.update_self ..
  prev := Function.update_self ..

theorem Circular.add (hl : Circular L h l) (hx : x ∉ h :: l) : Circular (L.add x h) h (x :: l) := by
  have hnd := hl.nodup
  rw [List.nodup_cons] at hnd
  rw [List.mem_cons, not_or] at hx
  obtain ⟨hxh, hxl⟩ := hx
  have hnodup : (h :: x :: l).Nodup := by
    simp [Ne.symm hxh, hnd.1, hxl, hnd.2]
  cases l with
  | nil =>
    -- the only neighbour is the head itself
    have hn : L.next h = some h := hl.next
    rw [Links.add, hn]
    exact
      { nodup := hnodup
        next := by simp [Path, Links.insert, Function.update_of_ne hxh]
        prev := by simp [Path, Links.insert, Function.update_of_ne (Ne.symm hxh)] }
  | cons y l =>
    obtain ⟨hn, hrest⟩ := hl.next
    rw [List.mem_cons, not_or] at hxl
    have hhy : h ≠ y := fun he => hnd.1 (by simp [he])
    have hyl : y ∉ l := (List.nodup_cons.mp hnd.2).1
    have hprev : Path L.prev h l.reverse y := by
      have := hl.prev
      rw [List.reverse_cons] at this
      exact (path_concat.mp this).1
    rw [Links.add, hn]
    refine
      { nodup := hnodup
        next := ⟨by simp [Links.insert], ?_, ?_⟩
        prev := ?_ }
    · simp [Links.insert, Function.update_of_ne hxh]
    · -- the pointers of the nodes after `y` stay
      refine hrest.congr fun c hc => ?_
      have hch : c ≠ h := fun he => hnd.1 (he ▸ hc)
      have hcx : c ≠ x := fun he => by
        rcases List.mem_cons.mp (he ▸ hc) with hxy | hmem
        · exact hxl.1 hxy
        · exact hxl.2 hmem
      simp [Links.insert, Function.update_of_ne hch, Function.update_of_ne hcx]
    · rw [List.reverse_cons, List.reverse_cons]
      refine path_concat.mpr ⟨path_concat.mpr ⟨hprev.congr fun c hc => ?_, ?_⟩, ?_⟩
      · have hcx : c ≠ x := fun he => by
          rcases List.mem_cons.mp (he ▸ hc) with hxh' | hmem
          · exact hxh hxh'
          · exact hxl.2 (List.mem_reverse.mp hmem)
        have hcy : c ≠ y := fun he => by
          rcases List.mem_cons.mp (he ▸ hc) with hyh | hmem
          · exact hhy hyh.symm
          · exact hyl (List.mem_reverse.mp hmem)
        simp [Links.insert, Function.update_of_ne hcx, Function.update_of_ne hcy]
      · simp [Links.insert, Function.update_of_ne (Ne.symm hxl.1)]
      · simp [Links.insert]

/-- The walk against the list's direction visits every node once and ends. -/
theorem Circular.forEachPrev (hl : Circular L h l) {n : Nat} (hn : l.length < n) :
    L.forEachPrev h n = some l.reverse :=
  follow_of_path hl.prev (by simpa using (List.nodup_cons.mp hl.nodup).1) (by simpa using hn)

end Circular

end Dlist
