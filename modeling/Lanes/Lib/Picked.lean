import Mathlib.Data.List.Forall2
import Mathlib.Data.List.Perm.Subperm

/-!
# Elements picked by position

Two ways in which one list takes its elements from another: by positions of which none occurs twice,
which gives a subpermutation, and in order, which gives a sublist. A ledger of what is pending and
what is done keeps the first when elements move from one side to the other.

* `subperm_of_nodup` turns ids into elements: where each entry of a list names the position it was
  taken from, and no position is named twice, the entries are among the list that is named.
* `ledger` is the step of such a count. What is pending or done stays among what came in or was made
  up, if every move is.
* `perm_flatMap_set` and `subperm_flatMap` take counts of the parts of a whole to the whole.
-/

namespace Picked

variable {α β : Type*} {xs : List α} {ys : List β} {ids : List Nat} {p : α → Bool} {g : α → β}

theorem filterMap_range_getElem? (xs : List α) :
    (List.range xs.length).filterMap (fun i => xs[i]?) = xs := by
  induction xs with
  | nil => rfl
  | cons x xs ih =>
    simp only [List.length_cons, List.range_succ_eq_map, List.filterMap_cons,
      List.getElem?_cons_zero, List.filterMap_map]
    exact congrArg (x :: ·) ih

/-- What is picked at position `i`, if that element passes. -/
def pick (p : α → Bool) (g : α → β) (xs : List α) (i : Nat) : Option β :=
  xs[i]?.bind fun x => if p x then some (g x) else none

theorem filterMap_pick (p : α → Bool) (g : α → β) (xs : List α) :
    (List.range xs.length).filterMap (pick p g xs) = (xs.filter p).map g := by
  calc _ = ((List.range xs.length).filterMap (fun i => xs[i]?)).filterMap
        (fun x => if p x then some (g x) else none) := by
        rw [List.filterMap_filterMap]
        rfl
    _ = xs.filterMap (fun x => if p x then some (g x) else none) := by
        rw [filterMap_range_getElem?]
    _ = (xs.filter p).map g := by
        induction xs with
        | nil => rfl
        | cons x xs ih => cases hx : p x <;> simp [hx, ih]

/-- Elements picked at distinct positions are, in some order, among those that pass. -/
theorem subperm_of_nodup (hnodup : ids.Nodup)
    (h : List.Forall₂ (fun i y => ∃ x, xs[i]? = some x ∧ p x = true ∧ g x = y) ids ys) :
    ys.Subperm ((xs.filter p).map g) := by
  have hys : ids.filterMap (pick p g xs) = ys := by
    clear hnodup
    induction h with
    | nil => rfl
    | @cons i _ _ _ hhead _ ih =>
      obtain ⟨x, hx, hp, rfl⟩ := hhead
      have hpick : pick p g xs i = some (g x) := by simp [pick, hx, hp]
      rw [List.filterMap_cons_some hpick, ih]
  have hids : ids.Subperm (List.range xs.length) := by
    refine hnodup.subperm fun i hi => ?_
    clear hys hnodup
    induction h with
    | nil => cases hi
    | cons hhead _ ih =>
      rcases List.mem_cons.mp hi with rfl | hi
      · obtain ⟨x, hx, -⟩ := hhead
        exact List.mem_range.mpr (List.getElem?_eq_some_iff.mp hx).1
      · exact ih hi
  obtain ⟨l, hperm, hsub⟩ := hids
  rw [← hys, ← filterMap_pick]
  exact ⟨l.filterMap (pick p g xs), hperm.filterMap _, hsub.filterMap _⟩

/-- What is picked has a position it is picked at. -/
theorem exists_of_mem {R : Nat → β → Prop} {y : β} (h : List.Forall₂ R ids ys) (hy : y ∈ ys) :
    ∃ i ∈ ids, R i y := by
  induction h with
  | nil => cases hy
  | @cons i _ _ _ hhead _ ih =>
    rcases List.mem_cons.mp hy with rfl | hy
    · exact ⟨i, List.mem_cons_self .., hhead⟩
    · obtain ⟨j, hj, hR⟩ := ih hy
      exact ⟨j, List.mem_cons_of_mem _ hj, hR⟩

theorem subperm_map {as bs : List α} (h : as.Subperm bs) (g : α → β) :
    (as.map g).Subperm (bs.map g) := by
  obtain ⟨cs, hperm, hsub⟩ := h
  exact ⟨cs.map g, hperm.map g, hsub.map g⟩

theorem perm_append_right_comm (as bs cs : List α) :
    ((as ++ bs) ++ cs).Perm ((as ++ cs) ++ bs) := by
  rw [List.append_assoc, List.append_assoc]
  exact List.perm_append_comm.append_left as

/-- The element at position `i` moves behind the others. -/
theorem perm_eraseIdx {i : Nat} {x : α} (h : xs[i]? = some x) : (xs.eraseIdx i ++ [x]).Perm xs := by
  obtain ⟨hi, rfl⟩ := List.getElem?_eq_some_iff.mp h
  exact (List.perm_append_singleton _ _).trans (List.getElem_cons_eraseIdx_perm hi)

/-- A ledger of what is pending and what is done against what came in and what was made up keeps
its balance: what is pending afterwards, with what gets done, was pending or comes in now. -/
theorem ledger {pending pending' done done' ins ins' extra extra' : List α}
    (h : (pending ++ done).Subperm (ins ++ extra))
    (hmove : (pending' ++ done').Subperm (pending ++ (ins' ++ extra'))) :
    (pending' ++ (done ++ done')).Subperm ((ins ++ ins') ++ (extra ++ extra')) := by
  have hleft : (pending' ++ (done ++ done')).Perm ((pending' ++ done') ++ done) := by
    rw [List.append_assoc]
    exact List.perm_append_comm.append_left _
  have hmid : ((pending ++ (ins' ++ extra')) ++ done).Perm
      ((pending ++ done) ++ (ins' ++ extra')) := perm_append_right_comm ..
  have hright : ((ins ++ extra) ++ (ins' ++ extra')).Perm
      ((ins ++ ins') ++ (extra ++ extra')) := by
    rw [List.append_assoc, List.append_assoc]
    refine List.Perm.append_left ins ?_
    rw [← List.append_assoc, ← List.append_assoc]
    exact List.perm_append_comm.append_right _
  refine hleft.subperm.trans ?_
  refine ((List.subperm_append_right done).mpr hmove).trans ?_
  refine hmid.subperm.trans ?_
  exact ((List.subperm_append_right _).mpr h).trans hright.subperm

/-- Replacing one part of a whole by a part that has more adds what it has more. -/
theorem perm_flatMap_set {f : α → List β} {i : Nat} {x y : α} {more : List β}
    (hx : xs[i]? = some x) (hy : f y = f x ++ more) :
    ((xs.set i y).flatMap f).Perm (xs.flatMap f ++ more) := by
  induction xs generalizing i with
  | nil => simp at hx
  | cons z xs ih =>
    cases i with
    | zero =>
      obtain rfl : z = x := by simpa using hx
      simp only [List.set_cons_zero, List.flatMap_cons, hy]
      exact perm_append_right_comm ..
    | succ i =>
      simp only [List.set_cons_succ, List.flatMap_cons, List.append_assoc]
      exact (ih (by simpa using hx)).append_left _

theorem subperm_flatMap {f g : α → List β} (h : ∀ x ∈ xs, (f x).Subperm (g x)) :
    (xs.flatMap f).Subperm (xs.flatMap g) := by
  induction xs with
  | nil => exact List.Subperm.refl _
  | cons x xs ih =>
    simp only [List.flatMap_cons]
    have hhead := h x (List.mem_cons_self ..)
    have htail := ih fun y hy => h y (List.mem_cons_of_mem _ hy)
    exact ((List.subperm_append_right _).mpr hhead).trans ((List.subperm_append_left _).mpr htail)

end Picked
