import Mathlib.Data.List.Perm.Basic
import Mathlib.Logic.Relation

/-!
# Reordering steps of which some commute

A list of steps is run from left to right. Two steps may be independent: where they stand next to
each other their order makes no difference. A permutation of the list that changes the order of
independent steps only is made of exchanges of neighbours (`reorders_of_inverted`), and therefore
ends in the same state (`Reorders.foldl`), up to a relation `same` that the steps respect.

Independence may rest on an invariant of the states and on a property of the steps, so both are
parameters of the rule.
-/

namespace Swaps

variable {α σ : Type*} {ind : α → α → Prop} {l l' : List α}

/-- Two independent neighbours change places. -/
inductive Swap (ind : α → α → Prop) : List α → List α → Prop
  | mk (xs ys : List α) {a b : α} (h : ind a b) : Swap ind (xs ++ a :: b :: ys) (xs ++ b :: a :: ys)

/-- Exchanges of independent neighbours, one after the other. -/
def Reorders (ind : α → α → Prop) : List α → List α → Prop := Relation.ReflTransGen (Swap ind)

theorem Swap.cons (x : α) (h : Swap ind l l') : Swap ind (x :: l) (x :: l') := by
  cases h with
  | mk xs ys hab => exact .mk (x :: xs) ys hab

theorem Reorders.cons (x : α) (h : Reorders ind l l') : Reorders ind (x :: l) (x :: l') :=
  Relation.ReflTransGen.lift (x :: ·) (fun _ _ => Swap.cons x) _ _ h

/-- A step that is independent of some others can be moved behind them. -/
theorem reorders_move {a : α} {xs : List α} (h : ∀ x ∈ xs, ind a x) (ys : List α) :
    Reorders ind (a :: (xs ++ ys)) (xs ++ a :: ys) := by
  induction xs with
  | nil => exact .refl
  | cons x xs ih =>
    have hfirst : Swap ind (a :: x :: (xs ++ ys)) (x :: a :: (xs ++ ys)) :=
      .mk [] (xs ++ ys) (h x (List.mem_cons_self ..))
    have hrest := ih fun y hy => h y (List.mem_cons_of_mem _ hy)
    exact Relation.ReflTransGen.head hfirst (Reorders.cons x hrest)

/-- A permutation consists of exchanges of neighbours, each of two elements whose order it
changes. -/
theorem reorders_of_inverted (hperm : l.Perm l')
    (hind : ∀ a b, [a, b].Sublist l → [b, a].Sublist l' → ind a b) : Reorders ind l l' := by
  induction l generalizing l' with
  | nil =>
    rw [hperm.symm.eq_nil]
    exact .refl
  | cons a l ih =>
    -- the first element goes to its place, past those that come to stand before it
    obtain ⟨xs, ys, rfl, hnew⟩ := List.eq_append_cons_of_mem (hperm.subset (List.mem_cons_self ..))
    have hrest : l.Perm (xs ++ ys) := (hperm.trans List.perm_middle).cons_inv
    have hbehind : ∀ x ∈ xs, ind a x := fun x hx => by
      have hxl : x ∈ l := hrest.symm.subset (List.mem_append_left _ hx)
      refine hind a x ?_ ?_
      · exact (List.singleton_sublist.mpr hxl).cons_cons a
      · exact (List.singleton_sublist.mpr hx).append (List.singleton_sublist.mpr (by simp))
    refine Relation.ReflTransGen.trans (Reorders.cons a (ih hrest fun b c hbc hcb => ?_))
      (reorders_move hbehind ys)
    refine hind b c (hbc.trans (List.sublist_cons_self a l)) (hcb.trans ?_)
    exact (List.sublist_cons_self a ys).append_left xs

theorem Swap.mem_iff (h : Swap ind l l') {x : α} : x ∈ l ↔ x ∈ l' := by
  cases h with
  | mk xs ys hab =>
    simp only [List.mem_append, List.mem_cons]
    tauto

/-- **Reordering.** Steps that keep an invariant, respect `same` and commute up to `same` where they
are independent lead to the same state in either order. -/
theorem Reorders.foldl (f : σ → α → σ) (same : σ → σ → Prop) (inv : σ → Prop) (good : α → Prop)
    (hrefl : ∀ s, same s s) (htrans : ∀ {s t u}, same s t → same t u → same s u)
    (hcongr : ∀ {s t} a, same s t → same (f s a) (f t a))
    (hinv : ∀ {s a}, good a → inv s → inv (f s a))
    (hcomm : ∀ {s a b}, inv s → ind a b → same (f (f s a) b) (f (f s b) a))
    (h : Reorders ind l l') (hgood : ∀ a ∈ l, good a) {s : σ} (hs : inv s) :
    same (l.foldl f s) (l'.foldl f s) := by
  have hrun : ∀ (zs : List α) {s t : σ}, same s t → same (zs.foldl f s) (zs.foldl f t) := by
    intro zs
    induction zs with
    | nil => exact fun hst => hst
    | cons z zs ih => exact fun hst => ih (hcongr z hst)
  have hkeep : ∀ (zs : List α) {s : σ}, (∀ z ∈ zs, good z) → inv s → inv (zs.foldl f s) := by
    intro zs
    induction zs with
    | nil => exact fun _ hs => hs
    | cons z zs ih =>
      exact fun hzs hs => ih (fun y hy => hzs y (List.mem_cons_of_mem _ hy))
        (hinv (hzs z (List.mem_cons_self ..)) hs)
  induction h using Relation.ReflTransGen.head_induction_on with
  | refl => exact hrefl _
  | @head first mid hswap _ ih =>
    refine htrans ?_ (ih fun a ha => hgood a (hswap.mem_iff.mpr ha))
    cases hswap with
    | mk xs ys hab =>
      rw [List.foldl_append, List.foldl_append]
      exact hrun ys (hcomm (hkeep xs (fun x hx => hgood x (List.mem_append_left _ hx)) hs) hab)

end Swaps
