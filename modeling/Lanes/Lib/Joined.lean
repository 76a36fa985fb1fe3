import Mathlib.Data.List.Chain
import Mathlib.Data.List.Cycle
import Lanes.Lib.Dlist

/-!
# Rings of joined nodes

Two nodes are joined when the one points forward to the other and the other back to it. A ring is a
list without repetition in which each node is joined to the one after it, and the last to the first;
which node is written first does not matter. The operations on linked lists insert a node into a
ring, take one out of it, or put two rings together, and leave every ring that they do not touch.

A ring is Mathlib's `Cycle` with `Joined` as the relation of its chain, so that rotating comes from
there. Opened at a node it is a segment from that node back to itself, and a segment is a plain
chain, on which the operations are followed pointer by pointer.

* `Links.Seg` and its lemmas: splitting a segment, and when another memory has the same segment.
* `Links.Ring` and one lemma for each operation: `init`, `insert`, `insert_before`, `unlink` and
  `splice`.
* `Links.Ring.circular` gives back the walks of `Lib.Dlist` in both directions.
-/

namespace Dlist

namespace Links

variable {ν : Type*} [DecidableEq ν]

/-- Make `p` and `n` neighbours. -/
def unlink (L : Links ν) (p n : ν) : Links ν where
  next := Function.update L.next p (some n)
  prev := Function.update L.prev n (some p)

/-- Put the nodes from `first` to `last` between `h` and `n`. -/
def splice (L : Links ν) (first last h n : ν) : Links ν where
  next := Function.update (Function.update L.next h (some first)) last (some n)
  prev := Function.update (Function.update L.prev first (some h)) n (some last)

/-- Set both pointers of `x` to null. -/
def clear (L : Links ν) (x : ν) : Links ν where
  next := Function.update L.next x none
  prev := Function.update L.prev x none

/-- `a` points forward to `b`, and `b` back to `a`. -/
def Joined (L : Links ν) (a b : ν) : Prop := L.next a = some b ∧ L.prev b = some a

/-- From `a` through the nodes of `l` to `b` each node is joined to the one after it. -/
def Seg (L : Links ν) (a : ν) (l : List ν) (b : ν) : Prop := List.IsChain L.Joined (a :: (l ++ [b]))

/-- The nodes of `l` are joined in a circle. -/
structure Ring (L : Links ν) (l : List ν) : Prop where
  nodup : l.Nodup
  chain : (l : Cycle ν).Chain L.Joined

end Links

variable {ν : Type*} {L L' : Links ν} {a b c h x : ν} {l l' : List ν}

/-! ## Segments

Inductions are on the nodes between the ends. `congr` is the frame rule: of the nodes at the ends
only one pointer each belongs to the segment, which is why two segments may share an end.
-/

section Seg

theorem seg_nil : L.Seg a [] b ↔ L.Joined a b := List.isChain_pair

theorem seg_cons : L.Seg a (x :: l) b ↔ L.Joined a x ∧ L.Seg x l b := List.isChain_cons_cons

theorem seg_append : L.Seg a (l ++ x :: l') b ↔ L.Seg a l x ∧ L.Seg x l' b := by
  induction l generalizing a with
  | nil => rw [List.nil_append, seg_cons, seg_nil]
  | cons y l ih => rw [List.cons_append, seg_cons, seg_cons, ih, and_assoc]

/-- A segment depends on the forward pointers of all its nodes but the last, and on the backward
pointers of all but the first. -/
theorem Links.Seg.congr (hs : L.Seg a l b) (hn : ∀ u ∈ a :: l, L'.next u = L.next u)
    (hp : ∀ v ∈ l ++ [b], L'.prev v = L.prev v) : L'.Seg a l b := by
  induction l generalizing a with
  | nil =>
    rw [seg_nil] at hs ⊢
    exact ⟨(hn a (by simp)).trans hs.1, (hp b (by simp)).trans hs.2⟩
  | cons x l ih =>
    rw [seg_cons] at hs ⊢
    obtain ⟨⟨hax, hxa⟩, hrest⟩ := hs
    refine ⟨⟨(hn a (by simp)).trans hax, (hp x (by simp)).trans hxa⟩, ih hrest ?_ ?_⟩
    · exact fun u hu => hn u (List.mem_cons_of_mem _ hu)
    · exact fun v hv => hp v (List.mem_cons_of_mem _ hv)

theorem Links.Seg.path_next (hs : L.Seg a l b) : Path L.next a l b := by
  induction l generalizing a with
  | nil => exact (seg_nil.mp hs).1
  | cons x l ih =>
    obtain ⟨hax, hrest⟩ := seg_cons.mp hs
    exact ⟨hax.1, ih hrest⟩

theorem Links.Seg.path_prev (hs : L.Seg a l b) : Path L.prev b l.reverse a := by
  induction l generalizing a with
  | nil => exact (seg_nil.mp hs).2
  | cons x l ih =>
    obtain ⟨hax, hrest⟩ := seg_cons.mp hs
    rw [List.reverse_cons]
    exact path_concat.mpr ⟨ih hrest, hax.2⟩

/-- The node before the end of a segment is one of its nodes. -/
theorem Links.Seg.prev_mem {t : ν} (hs : L.Seg a l b) (ht : L.prev b = some t) : t ∈ a :: l := by
  induction l generalizing a with
  | nil =>
    rw [(seg_nil.mp hs).2] at ht
    cases ht
    exact List.mem_singleton_self _
  | cons x l ih => exact List.mem_cons_of_mem _ (ih (seg_cons.mp hs).2)

/-- The last node `t` of a segment gets another successor `n`; the other nodes stay joined. -/
theorem Links.Seg.redirect {t n : ν} (hs : L.Seg a l b) (hnd : (a :: l).Nodup)
    (ht : L.prev b = some t) (hnext : L'.next t = some n) (hprev : L'.prev n = some t)
    (hn : ∀ u ∈ a :: l, u ≠ t → L'.next u = L.next u) (hp : ∀ v ∈ l, L'.prev v = L.prev v) :
    L'.Seg a l n := by
  induction l generalizing a with
  | nil =>
    rw [(seg_nil.mp hs).2] at ht
    cases ht
    exact seg_nil.mpr ⟨hnext, hprev⟩
  | cons x l ih =>
    obtain ⟨⟨hax, hxa⟩, hrest⟩ := seg_cons.mp hs
    obtain ⟨hfresh, hnd'⟩ := List.nodup_cons.mp hnd
    have hat : a ≠ t := fun he => hfresh (he ▸ hrest.prev_mem ht)
    refine seg_cons.mpr ⟨⟨?_, ?_⟩, ih hrest hnd' ?_ ?_⟩
    · exact (hn a (by simp) hat).trans hax
    · exact (hp x (by simp)).trans hxa
    · exact fun u hu => hn u (List.mem_cons_of_mem _ hu)
    · exact fun v hv => hp v (List.mem_cons_of_mem _ hv)

end Seg

/-! ## Rings

Every operation is proved at the node that is written first. `rotate` brings any other node of a
ring there.
-/

namespace Links.Ring

theorem seg (hr : L.Ring (a :: l)) : L.Seg a l a := (Cycle.chain_coe_cons ..).mp hr.chain

/-- Any node of a ring can be written first. -/
theorem rotate (hr : L.Ring (l ++ l')) : L.Ring (l' ++ l) where
  nodup := (List.nodup_append_comm).mp hr.nodup
  chain := by
    have hsame : ((l' ++ l : List ν) : Cycle ν) = (l ++ l' : List ν) :=
      Cycle.coe_eq_coe.mpr List.isRotated_append
    rw [hsame]
    exact hr.chain

theorem next_head (hr : L.Ring (a :: b :: l)) : L.next a = some b := (seg_cons.mp hr.seg).1.1

theorem prev_head (hr : L.Ring (a :: (l ++ [b]))) : L.prev a = some b := by
  have hs := hr.seg
  exact (seg_nil.mp (seg_append.mp hs).2).2

theorem congr (hr : L.Ring l) (hn : ∀ u ∈ l, L'.next u = L.next u)
    (hp : ∀ u ∈ l, L'.prev u = L.prev u) : L'.Ring l where
  nodup := hr.nodup
  chain := by
    cases l with
    | nil => exact Cycle.Chain.nil _
    | cons a l =>
      refine (Cycle.chain_coe_cons ..).mpr (hr.seg.congr hn fun v hv => hp v ?_)
      simpa [or_comm] using hv

/-- Both walks from a node of a ring come back to it. -/
theorem circular (hr : L.Ring (h :: l)) : Circular L h l where
  nodup := hr.nodup
  next := hr.seg.path_next
  prev := hr.seg.path_prev

/-- A node of a ring has a neighbour in the ring on either side. -/
theorem neighbours (hr : L.Ring l) (hx : x ∈ l) :
    ∃ n p, L.next x = some n ∧ L.prev x = some p ∧ n ∈ l ∧ p ∈ l := by
  obtain ⟨l₁, l₂, rfl⟩ := List.append_of_mem hx
  have hs : L.Ring (x :: (l₂ ++ l₁)) := hr.rotate
  obtain ⟨n, hn, hnmem⟩ : ∃ n, L.next x = some n ∧ n ∈ x :: (l₂ ++ l₁) := by
    cases hrest : l₂ ++ l₁ with
    | nil =>
      rw [hrest] at hs
      exact ⟨x, (seg_nil.mp hs.seg).1, List.mem_cons_self ..⟩
    | cons n rest =>
      rw [hrest] at hs
      exact ⟨n, hs.next_head, by simp⟩
  obtain ⟨p, hp⟩ : ∃ p, L.prev x = some p := by
    rcases List.eq_nil_or_concat' (l₂ ++ l₁) with hrest | ⟨rest, p, hrest⟩
    · rw [hrest] at hs
      exact ⟨x, (seg_nil.mp hs.seg).2⟩
    · rw [hrest] at hs
      exact ⟨p, hs.prev_head⟩
  have hmem : ∀ y ∈ x :: (l₂ ++ l₁), y ∈ l₁ ++ x :: l₂ := fun y hy => by
    simp only [List.mem_cons, List.mem_append] at hy ⊢
    tauto
  exact ⟨n, p, hn, hp, hmem n hnmem, hmem p (hs.seg.prev_mem hp)⟩

variable [DecidableEq ν]

theorem init (L : Links ν) (h : ν) : (L.init h).Ring [h] where
  nodup := List.nodup_singleton h
  chain := by simp [Links.init, Joined]

theorem insert {n : ν} (hr : L.Ring (a :: l)) (hx : x ∉ a :: l) (hn : L.next a = some n) :
    (L.insert x a n).Ring (a :: x :: l) := by
  rw [List.mem_cons, not_or] at hx
  obtain ⟨hxa, hxl⟩ := hx
  obtain ⟨hal, hl⟩ := List.nodup_cons.mp hr.nodup
  refine ⟨by simp [Ne.symm hxa, hal, hxl, hl], (Cycle.chain_coe_cons ..).mpr ?_⟩
  refine seg_cons.mpr ⟨⟨by simp [Links.insert], by simp [Links.insert]⟩, ?_⟩
  cases l with
  | nil =>
    obtain rfl : n = a := Option.some.inj (hn.symm.trans (seg_nil.mp hr.seg).1)
    refine seg_nil.mpr ⟨?_, ?_⟩
    · simp [Links.insert, Function.update_of_ne hxa]
    · simp [Links.insert, Function.update_of_ne (Ne.symm hxa)]
  | cons b l =>
    obtain rfl : n = b := Option.some.inj (hn.symm.trans hr.next_head)
    rw [List.mem_cons, not_or] at hxl hal
    obtain ⟨hnl, -⟩ := List.nodup_cons.mp hl
    refine seg_cons.mpr ⟨⟨?_, ?_⟩, (seg_cons.mp hr.seg).2.congr (fun u hu => ?_) fun v hv => ?_⟩
    · simp [Links.insert, Function.update_of_ne hxa]
    · simp [Links.insert, Function.update_of_ne (Ne.symm hxl.1)]
    · have hua : u ≠ a := by grind
      have hux : u ≠ x := by grind
      simp [Links.insert, Function.update_of_ne hua, Function.update_of_ne hux]
    · have hvn : v ≠ n := by grind
      have hvx : v ≠ x := by grind
      simp [Links.insert, Function.update_of_ne hvn, Function.update_of_ne hvx]

/-- Insertion before the first node puts the new one at the end. -/
theorem insert_before {p : ν} (hr : L.Ring (a :: l)) (hx : x ∉ a :: l) (hp : L.prev a = some p) :
    (L.insert x p a).Ring (a :: (l ++ [x])) := by
  rcases List.eq_nil_or_concat' l with rfl | ⟨rest, q, rfl⟩
  · obtain ⟨hnext, hprev⟩ := seg_nil.mp hr.seg
    obtain rfl : p = a := Option.some.inj (hp.symm.trans hprev)
    exact hr.insert hx hnext
  · obtain rfl : p = q := Option.some.inj (hp.symm.trans hr.prev_head)
    have hs : L.Ring ([p] ++ a :: rest) := rotate hr
    have hback : (L.insert x p a).Ring (a :: rest ++ [p, x]) :=
      rotate (hs.insert (by simpa [or_comm, or_assoc, or_left_comm] using hx) hs.next_head)
    simpa using hback

/-- The node at the front is taken out. -/
theorem unlink {p n : ν} (hr : L.Ring (x :: l)) (hne : l ≠ []) (hp : L.prev x = some p)
    (hn : L.next x = some n) : (L.unlink p n).Ring l := by
  obtain ⟨a, rest, rfl⟩ := List.exists_cons_of_ne_nil hne
  obtain rfl : n = a := Option.some.inj (hn.symm.trans hr.next_head)
  have hnd := (List.nodup_cons.mp hr.nodup).2
  refine ⟨hnd, (Cycle.chain_coe_cons ..).mpr ?_⟩
  refine (seg_cons.mp hr.seg).2.redirect hnd hp (by simp [Links.unlink]) (by simp [Links.unlink])
    (fun u _ hu => Function.update_of_ne hu _ _) fun v hv => ?_
  have hvn : v ≠ n := fun he => (List.nodup_cons.mp hnd).1 (he ▸ hv)
  exact Function.update_of_ne hvn _ _

/-- The nodes of a ring but for the first are put behind the first node of another. -/
theorem splice {s first last n : ν} {l₁ : List ν} (hs : L.Ring (s :: l₁)) (hne : l₁ ≠ [])
    (hr : L.Ring (h :: l)) (hd : List.Disjoint (s :: l₁) (h :: l))
    (hfirst : L.next s = some first) (hlast : L.prev s = some last) (hn : L.next h = some n) :
    (L.splice first last h n).Ring (h :: (l₁ ++ l)) := by
  obtain ⟨f, rest, rfl⟩ := List.exists_cons_of_ne_nil hne
  obtain rfl : first = f := Option.some.inj (hfirst.symm.trans hs.next_head)
  obtain ⟨-, hnd⟩ := List.nodup_cons.mp hs.nodup
  obtain ⟨hhl, hl⟩ := List.nodup_cons.mp hr.nodup
  have hapart : ∀ u ∈ first :: rest, ∀ v ∈ h :: l, u ≠ v := fun u hu v hv he =>
    hd (List.mem_cons_of_mem _ hu) (he ▸ hv)
  have hmid := (seg_cons.mp hs.seg).2
  have hlastmem : last ∈ first :: rest := hmid.prev_mem hlast
  have hnmem : n ∈ h :: l := by
    obtain ⟨n', -, hn', -, hmem, -⟩ := hr.neighbours (List.mem_cons_self ..)
    exact Option.some.inj (hn'.symm.trans hn) ▸ hmem
  have hnodup : (h :: (first :: rest ++ l)).Nodup := by
    have hdis : List.Disjoint (first :: rest) l := fun u hu hv =>
      hapart u hu u (List.mem_cons_of_mem _ hv) rfl
    have hhm : h ∉ first :: rest := fun hmem => hapart h hmem h (List.mem_cons_self ..) rfl
    refine List.nodup_cons.mpr ⟨fun hmem => ?_, List.nodup_append'.mpr ⟨hnd, hl, hdis⟩⟩
    exact (List.mem_append.mp hmem).elim hhm hhl
  have hin : (L.splice first last h n).Seg h (first :: rest) n := by
    refine seg_cons.mpr ⟨⟨?_, ?_⟩, hmid.redirect hnd hlast ?_ ?_ (fun u hu hne => ?_)
      fun v hv => ?_⟩
    · have hhl' : h ≠ last := Ne.symm (hapart last hlastmem h (List.mem_cons_self ..))
      simp [Links.splice, Function.update_of_ne hhl']
    · have hfn : first ≠ n := hapart first (List.mem_cons_self ..) n hnmem
      simp [Links.splice, Function.update_of_ne hfn]
    · simp [Links.splice]
    · simp [Links.splice]
    · have huh : u ≠ h := hapart u hu h (List.mem_cons_self ..)
      simp [Links.splice, Function.update_of_ne hne, Function.update_of_ne huh]
    · have hvf : v ≠ first := fun he => (List.nodup_cons.mp hnd).1 (he ▸ hv)
      have hvn : v ≠ n := hapart v (List.mem_cons_of_mem _ hv) n hnmem
      simp [Links.splice, Function.update_of_ne hvn, Function.update_of_ne hvf]
  refine ⟨hnodup, (Cycle.chain_coe_cons ..).mpr ?_⟩
  cases l with
  | nil =>
    obtain rfl : n = h := Option.some.inj (hn.symm.trans (seg_nil.mp hr.seg).1)
    rw [List.append_nil]
    exact hin
  | cons b l =>
    obtain rfl : n = b := Option.some.inj (hn.symm.trans hr.next_head)
    -- the nodes behind `n` keep their pointers
    refine seg_append.mpr ⟨hin, (seg_cons.mp hr.seg).2.congr (fun u hu => ?_) fun v hv => ?_⟩
    · have huh : u ≠ h := fun he => hhl (he ▸ hu)
      have hul : u ≠ last := Ne.symm (hapart last hlastmem u (List.mem_cons_of_mem _ hu))
      simp [Links.splice, Function.update_of_ne hul, Function.update_of_ne huh]
    · have hvmem : v ∈ h :: n :: l := by grind
      have hvf : v ≠ first := Ne.symm (hapart first (List.mem_cons_self ..) v hvmem)
      have hvn : v ≠ n := by grind
      simp [Links.splice, Function.update_of_ne hvn, Function.update_of_ne hvf]

end Links.Ring

end Dlist
