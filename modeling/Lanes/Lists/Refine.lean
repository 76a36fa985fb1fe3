import Lanes.Lists.Heads

/-!
# The pointers represent the lists

Every function of `list.h`, called where it may be called, finds no null pointer and leaves pointers
that represent the lists as the call has changed them.

## Main results

* **`listStep_represents`**: the step. One lemma for each function is behind it, and each of them is
  an application of `Represents.set`: a change that leaves every other list as it was.
* **`lists_represented`**: after any sequence of calls that `ListNext` allows, from any contents of
  memory, the pointers are those of the family it leads to; a walk over a list visits its nodes in
  order, in either direction.
* **`forEachSafe_visits`**: the walk that may change the list. `list_for_each_safe` remembers the
  next entry before the body runs; it visits the list as it was as long as the body removes or moves
  no entry but the one it is given.
-/

namespace Lanes

open Dlist

/-! ## One call

What `Represents` asks of a call is a frame condition: pointers of nodes in other lists stay. A
node in no list may hold anything, and after a call it often holds stale pointers. -/

/-- The pointers join the nodes of each list, and no node is in two of them. -/
structure Represents {ν : Type*} (L : Links ν) (ls : Lists ν) : Prop where
  ring : ∀ h l, ls h = some l → L.Ring (h :: l)
  disjoint : ∀ h l h' l', ls h = some l → ls h' = some l' → h ≠ h' →
    List.Disjoint (h :: l) (h' :: l')

section Calls

variable {ν : Type*} {L L' : Links ν} {ls ls' : Lists ν} {h s x : ν} {l l' : List ν} {op : ListOp ν}
  {ops : List (ListOp ν)}

theorem represents_none (L : Links ν) : Represents L fun _ => none where
  ring h l hl := by cases hl
  disjoint h l h' l' hl := by cases hl

variable [DecidableEq ν]

@[simp] theorem Lists.set_self (ls : Lists ν) (h : ν) (l : List ν) : ls.set h l h = some l :=
  Function.update_self ..

theorem Lists.set_of_ne {h' : ν} (hne : h' ≠ h) : ls.set h l h' = ls h' :=
  Function.update_of_ne hne ..

/-- A change of the pointers that leaves all lists but one alone. -/
theorem Represents.set (hr : Represents L ls) (hring : L'.Ring (h :: l))
    (hframe : ∀ h' l', h' ≠ h → ls h' = some l' →
      L'.Ring (h' :: l') ∧ List.Disjoint (h :: l) (h' :: l')) :
    Represents L' (ls.set h l) where
  ring h' l' hl' := by
    by_cases hh : h' = h
    · subst hh
      rw [Lists.set_self] at hl'
      cases hl'
      exact hring
    · rw [Lists.set_of_ne hh] at hl'
      exact (hframe h' l' hh hl').1
  disjoint h₁ l₁ h₂ l₂ h₁l h₂l hne := by
    by_cases hh : h₁ = h
    · subst hh
      rw [Lists.set_self] at h₁l
      cases h₁l
      rw [Lists.set_of_ne (Ne.symm hne)] at h₂l
      exact (hframe h₂ l₂ (Ne.symm hne) h₂l).2
    · rw [Lists.set_of_ne hh] at h₁l
      by_cases hh' : h₂ = h
      · subst hh'
        rw [Lists.set_self] at h₂l
        cases h₂l
        exact (hframe h₁ l₁ hh h₁l).2.symm
      · rw [Lists.set_of_ne hh'] at h₂l
        exact hr.disjoint h₁ l₁ h₂ l₂ h₁l h₂l hne

/-- Forget a list. -/
theorem Represents.forget (hr : Represents L ls) (h : ν) :
    Represents L (Function.update ls h none) := by
  have hkeep : ∀ h' l', Function.update ls h none h' = some l' → ls h' = some l' := by
    intro h' l' hl
    by_cases hh : h' = h
    · subst hh
      simp at hl
    · rwa [Function.update_of_ne hh] at hl
  exact ⟨fun h' l' hl => hr.ring h' l' (hkeep h' l' hl),
    fun h₁ l₁ h₂ l₂ h₁l h₂l => hr.disjoint h₁ l₁ h₂ l₂ (hkeep _ _ h₁l) (hkeep _ _ h₂l)⟩

theorem Represents.init (hr : Represents L ls) (hout : ∀ h' l, ls h' = some l → h ∉ l) :
    Represents (L.init h) (ls.set h []) := by
  refine hr.set (Links.Ring.init L h) fun h' l' hne hl' => ?_
  have hmem : h ∉ h' :: l' := fun hmem =>
    (List.mem_cons.mp hmem).elim (fun he => hne he.symm) (hout h' l' hl')
  have hoff : ∀ u ∈ h' :: l', u ≠ h := fun u hu he => hmem (he ▸ hu)
  exact ⟨(hr.ring h' l' hl').congr (fun u hu => Function.update_of_ne (hoff u hu) ..)
      fun u hu => Function.update_of_ne (hoff u hu) ..,
    by simpa using hmem⟩

/-- A node is put between two of a list. -/
theorem Represents.insert (hr : Represents L ls) (hl : ls h = some l) (hx : ls.Free x) {p n : ν}
    (hp : p ∈ h :: l) (hn : n ∈ h :: l) (hring : (L.insert x p n).Ring (h :: l'))
    (hsub : ∀ u ∈ l', u = x ∨ u ∈ l) : Represents (L.insert x p n) (ls.set h l') := by
  refine hr.set hring fun h₁ l₁ hne h₁l => ?_
  have hd := hr.disjoint h l h₁ l₁ hl h₁l (Ne.symm hne)
  have hux : ∀ u ∈ h₁ :: l₁, u ≠ x := fun u hu he => hx h₁ l₁ h₁l (he ▸ hu)
  have hup : ∀ u ∈ h₁ :: l₁, u ≠ p := fun u hu he => hd hp (he ▸ hu)
  have hun : ∀ u ∈ h₁ :: l₁, u ≠ n := fun u hu he => hd hn (he ▸ hu)
  refine ⟨(hr.ring h₁ l₁ h₁l).congr (fun u hu => ?_) fun u hu => ?_, fun u hu hu₁ => ?_⟩
  · simp [Links.insert, Function.update_of_ne (hup u hu), Function.update_of_ne (hux u hu)]
  · simp [Links.insert, Function.update_of_ne (hux u hu), Function.update_of_ne (hun u hu)]
  · rcases List.mem_cons.mp hu with rfl | hu
    · exact hd (List.mem_cons_self ..) hu₁
    · exact (hsub u hu).elim (hux u hu₁) fun hu => hd (List.mem_cons_of_mem _ hu) hu₁

theorem Represents.listAdd (hr : Represents L ls) (hl : ls h = some l) (hx : ls.Free x) :
    ∃ L', listAdd L x h = some L' ∧ Represents L' (ls.set h (x :: l)) := by
  have hring := hr.ring h l hl
  obtain ⟨n, -, hn, -, hnmem, -⟩ := hring.neighbours (List.mem_cons_self ..)
  refine ⟨L.insert x h n, by simp [Lanes.listAdd, hn], ?_⟩
  exact hr.insert hl hx (List.mem_cons_self ..) hnmem (hring.insert (hx h l hl) hn)
    fun u hu => List.mem_cons.mp hu

theorem Represents.listAddTail (hr : Represents L ls) (hl : ls h = some l) (hx : ls.Free x) :
    ∃ L', listAddTail L x h = some L' ∧ Represents L' (ls.set h (l ++ [x])) := by
  have hring := hr.ring h l hl
  obtain ⟨-, p, -, hp, -, hpmem⟩ := hring.neighbours (List.mem_cons_self ..)
  refine ⟨L.insert x p h, by simp [Lanes.listAddTail, hp], ?_⟩
  exact hr.insert hl hx hpmem (List.mem_cons_self ..) (hring.insert_before (hx h l hl) hp)
    fun u hu => by simpa [or_comm] using hu

/-- An entry is taken out of its list, and is in none then. -/
theorem Represents.detach (hr : Represents L ls) (hl : ls h = some l) (hx : x ∈ l) :
    ∃ L', detach L x = some L' ∧ Represents L' (ls.set h (l.erase x)) ∧
      (ls.set h (l.erase x)).Free x := by
  have hring := hr.ring h l hl
  have hmem : x ∈ h :: l := List.mem_cons_of_mem _ hx
  obtain ⟨hhl, hnd⟩ := List.nodup_cons.mp hring.nodup
  obtain ⟨n, p, hn, hp, hnmem, hpmem⟩ := hring.neighbours hmem
  obtain ⟨l₁, l₂, rfl⟩ := List.append_of_mem hx
  have hxl₁ : x ∉ l₁ := fun hmem => (List.nodup_append'.mp hnd).2.2 hmem (List.mem_cons_self ..)
  have herase : (l₁ ++ x :: l₂).erase x = l₁ ++ l₂ := by
    rw [List.erase_append_right _ hxl₁, List.erase_cons_head]
  -- with the entry written first, it is the front of the ring that goes
  have hsplit : L.Ring (h :: l₁ ++ x :: l₂) := hring
  have hfront : L.Ring (x :: l₂ ++ h :: l₁) := hsplit.rotate
  have hout : (L.unlink p n).Ring (h :: (l₁ ++ l₂)) :=
    Links.Ring.rotate (Links.Ring.unlink hfront (by simp) hp hn)
  refine ⟨L.unlink p n, by simp [Lanes.detach, hp, hn], ?_, fun h₁ l₁' h₁l hmem' => ?_⟩
  · rw [herase]
    refine hr.set hout fun h₁ l₁' hne h₁l => ?_
    have hd := hr.disjoint h _ h₁ l₁' hl h₁l (Ne.symm hne)
    have hup : ∀ u ∈ h₁ :: l₁', u ≠ p := fun u hu he => hd hpmem (he ▸ hu)
    have hun : ∀ u ∈ h₁ :: l₁', u ≠ n := fun u hu he => hd hnmem (he ▸ hu)
    refine ⟨(hr.ring h₁ l₁' h₁l).congr (fun u hu => Function.update_of_ne (hup u hu) ..)
      fun u hu => Function.update_of_ne (hun u hu) .., fun u hu => hd ?_⟩
    simp only [List.mem_cons, List.mem_append] at hu ⊢
    tauto
  · by_cases hne : h₁ = h
    · subst hne
      rw [Lists.set_self] at h₁l
      cases h₁l
      rcases List.mem_cons.mp hmem' with rfl | hmem'
      · exact hhl hx
      · exact hnd.not_mem_erase hmem'
    · rw [Lists.set_of_ne hne] at h₁l
      exact hr.disjoint h _ h₁ l₁' hl h₁l (Ne.symm hne) hmem hmem'

/-- A node that is in no list may be changed. -/
theorem Represents.clear (hr : Represents L ls) (hx : ls.Free x) :
    Represents (L.clear x) ls := by
  refine ⟨fun h l hl => ?_, hr.disjoint⟩
  have hoff : ∀ u ∈ h :: l, u ≠ x := fun u hu he => hx h l hl (he ▸ hu)
  exact (hr.ring h l hl).congr (fun u hu => Function.update_of_ne (hoff u hu) ..)
    fun u hu => Function.update_of_ne (hoff u hu) ..

theorem Represents.listEmpty (hr : Represents L ls) (hl : ls h = some l) :
    listEmpty L h = true ↔ l = [] := by
  have hring := hr.ring h l hl
  rw [Lanes.listEmpty, beq_iff_eq]
  cases l with
  | nil => simp [(seg_nil.mp hring.seg).1]
  | cons b l =>
    have hne : b ≠ h := fun he => (List.nodup_cons.mp hring.nodup).1 (by simp [he])
    simp [hring.next_head, hne]

/-- The nodes of one list are put in front of those of another, and the head of the first is in no
list then. -/
theorem Represents.joinLists (hr : Represents L ls) (hs : ls s = some l) (hne : l ≠ [])
    (hl' : ls h = some l') (hsh : s ≠ h) :
    ∃ L', joinLists L s h = some L' ∧
      Represents L' (Function.update (ls.set h (l ++ l')) s none) ∧
      Lists.Free (Function.update (ls.set h (l ++ l')) s none) s := by
  have hfrom := hr.ring s l hs
  have hto := hr.ring h l' hl'
  have hd := hr.disjoint s l h l' hs hl' hsh
  obtain ⟨first, last, hfirst, hlast, hfmem, hlmem⟩ := hfrom.neighbours (List.mem_cons_self ..)
  obtain ⟨n, -, hn, -, hnmem, -⟩ := hto.neighbours (List.mem_cons_self ..)
  have hring := hfrom.splice hne hto hd hfirst hlast hn
  refine ⟨L.splice first last h n, by simp [Lanes.joinLists, hfirst, hlast, hn], ?_, ?_⟩
  · have hswap : Function.update (ls.set h (l ++ l')) s none =
        Lists.set (Function.update ls s none) h (l ++ l') := Function.update_comm (Ne.symm hsh) ..
    rw [hswap]
    refine (hr.forget s).set hring fun h₁ l₁ hh h₁l => ?_
    have hs₁ : h₁ ≠ s := fun he => by
      rw [he, Function.update_self] at h₁l
      cases h₁l
    rw [Function.update_of_ne hs₁] at h₁l
    have hds := hr.disjoint s l h₁ l₁ hs h₁l (Ne.symm hs₁)
    have hdh := hr.disjoint h l' h₁ l₁ hl' h₁l (Ne.symm hh)
    refine ⟨(hr.ring h₁ l₁ h₁l).congr (fun u hu => ?_) fun u hu => ?_, fun u hu hu₁ => ?_⟩
    · have huh : u ≠ h := fun he => hdh (List.mem_cons_self ..) (he ▸ hu)
      have hul : u ≠ last := fun he => hds hlmem (he ▸ hu)
      simp [Links.splice, Function.update_of_ne hul, Function.update_of_ne huh]
    · have huf : u ≠ first := fun he => hds hfmem (he ▸ hu)
      have hun : u ≠ n := fun he => hdh hnmem (he ▸ hu)
      simp [Links.splice, Function.update_of_ne hun, Function.update_of_ne huf]
    · simp only [List.mem_cons, List.mem_append] at hu
      rcases hu with hu | hu | hu
      · exact hdh (List.mem_cons.mpr (Or.inl hu)) hu₁
      · exact hds (List.mem_cons_of_mem _ hu) hu₁
      · exact hdh (List.mem_cons_of_mem _ hu) hu₁
  · intro h₁ l₁ h₁l hmem
    have hs₁ : h₁ ≠ s := fun he => by
      rw [he, Function.update_self] at h₁l
      cases h₁l
    rw [Function.update_of_ne hs₁] at h₁l
    by_cases hh : h₁ = h
    · subst hh
      rw [Lists.set_self] at h₁l
      cases h₁l
      simp only [List.mem_cons, List.mem_append] at hmem
      rcases hmem with hmem | hmem | hmem
      · exact hsh hmem
      · exact (List.nodup_cons.mp hfrom.nodup).1 hmem
      · exact hd (List.mem_cons_self ..) (List.mem_cons_of_mem _ hmem)
    · rw [Lists.set_of_ne hh] at h₁l
      exact hr.disjoint s l h₁ l₁ hs h₁l (Ne.symm hs₁) (List.mem_cons_self ..) hmem

/-- A node that is in no list becomes the head of an empty one. -/
theorem Represents.init_free (hr : Represents L ls) (hx : ls.Free x) :
    Represents (L.init x) (ls.set x []) :=
  hr.init fun h' l hl hmem => hx h' l hl (List.mem_cons_of_mem _ hmem)

/-- A call that may be made finds no null pointer, and changes the lists as it is meant to. -/
theorem listStep_represents (hr : Represents L ls) (hnext : ListNext ls op ls') :
    ∃ L', listStep L op = some L' ∧ Represents L' ls' := by
  cases hnext with
  | init hout => exact ⟨_, rfl, hr.init hout⟩
  | add hl hx => exact hr.listAdd hl hx
  | addTail hl hx => exact hr.listAddTail hl hx
  | del hl hx =>
    obtain ⟨L₁, h₁, hr₁, hfree⟩ := hr.detach hl hx
    exact ⟨L₁.clear _, by simp [listStep, listDel, h₁], hr₁.clear hfree⟩
  | delInit hl hx =>
    obtain ⟨L₁, h₁, hr₁, hfree⟩ := hr.detach hl hx
    exact ⟨L₁.init _, by simp [listStep, listDelInit, h₁], hr₁.init_free hfree⟩
  | move hl hx hl' =>
    obtain ⟨L₁, h₁, hr₁, hfree⟩ := hr.detach hl hx
    obtain ⟨L₂, h₂, hr₂⟩ := hr₁.listAdd hl' hfree
    exact ⟨L₂, by simp [listStep, listMove, h₁, h₂], hr₂⟩
  | moveTail hl hx hl' =>
    obtain ⟨L₁, h₁, hr₁, hfree⟩ := hr.detach hl hx
    obtain ⟨L₂, h₂, hr₂⟩ := hr₁.listAddTail hl' hfree
    exact ⟨L₂, by simp [listStep, listMoveTail, h₁, h₂], hr₂⟩
  | spliceEmpty hs => exact ⟨L, if_pos ((hr.listEmpty hs).mpr rfl), hr⟩
  | splice hs hne hh hsh =>
    obtain ⟨L₁, h₁, hr₁, -⟩ := hr.joinLists hs hne hh hsh
    exact ⟨L₁, (if_neg fun he => hne ((hr.listEmpty hs).mp he)).trans h₁, hr₁⟩
  | spliceInitEmpty hs => exact ⟨L, if_pos ((hr.listEmpty hs).mpr rfl), hr⟩
  | @spliceInit s h l l' hs hne hh hsh =>
    obtain ⟨L₁, h₁, hr₁, hfree⟩ := hr.joinLists hs hne hh hsh
    have hcode : listStep L (.spliceInit s h) = some (L₁.init s) := by
      have hempty : ¬ listEmpty L s = true := fun he => hne ((hr.listEmpty hs).mp he)
      simp [listStep, listSpliceInit, hempty, h₁]
    refine ⟨L₁.init s, hcode, ?_⟩
    have hinit := hr₁.init_free hfree
    rwa [Lists.set, Function.update_idem] at hinit

/-! ## Walks

The loop macros with a count of the entries they may visit; a list of fewer entries is visited
whole. -/

/-- The nodes that `list_for_each` visits; `n` bounds its length. -/
def forEach (L : Links ν) (h : ν) (n : Nat) : Option (List ν) := follow L.next h n (L.next h)

theorem Represents.forEach (hr : Represents L ls) (hl : ls h = some l) {n : Nat}
    (hn : l.length < n) : forEach L h n = some l := by
  have hc := (hr.ring h l hl).circular
  exact follow_of_path hc.next (List.nodup_cons.mp hc.nodup).1 hn

/-- Calls that may be made one after the other find no null pointer. -/
theorem represents_of_trace (L : Links ν) (hops : Run.Trace ListNext (fun _ => none) ops ls) :
    ∃ L', Run.exec listStep L ops = some L' ∧ Represents L' ls := by
  have hstep : ∀ (L : Links ν) ls op ls', Represents L ls → ListNext ls op ls' →
      ∃ L', listStep L op = some L' ∧ Represents L' ls' :=
    fun _ _ _ _ hr hnext => listStep_represents hr hnext
  exact Run.exec_of_trace Represents hstep hops (represents_none L)

theorem Represents.forEachPrev (hr : Represents L ls) (hl : ls h = some l) {n : Nat}
    (hn : l.length < n) : L.forEachPrev h n = some l.reverse :=
  (hr.ring h l hl).circular.forEachPrev hn

/-- **The lists.** Whatever the memory held before, after any sequence of calls each of which may be
made no null pointer has been met, and for every list both walks and the test for emptiness see the
nodes that the calls have put there, in their order. -/
theorem lists_represented (L : Links ν) (hops : Run.Trace ListNext (fun _ => none) ops ls) :
    ∃ L', Run.exec listStep L ops = some L' ∧
      ∀ h l, ls h = some l → (∀ n, l.length < n →
        forEach L' h n = some l ∧ L'.forEachPrev h n = some l.reverse) ∧
        (listEmpty L' h = true ↔ l = []) := by
  obtain ⟨L', hexec, hr⟩ := represents_of_trace L hops
  exact ⟨L', hexec, fun h l hl =>
    ⟨fun n hn => ⟨hr.forEach hl hn, hr.forEachPrev hl hn⟩, hr.listEmpty hl⟩⟩

/-! ## Walks that change the list

`kept` are the entries that the walk has passed and that the body left in the list. The induction is
on the entries still in front of it, which no call of the body touches. -/

/-- The loop of `list_for_each_safe`; `n` is the node saved before the body runs, `k` bounds its
length. -/
def forEachSafe (body : ν → Links ν → Option (Links ν)) (h : ν) :
    Nat → Links ν → ν → Option ν → Option (List ν × Links ν)
  | 0, _, _, _ => none
  | k + 1, L, pos, n =>
    if pos = h then some ([], L)
    else do
      let L ← body pos L
      let next ← n
      let (seen, L) ← forEachSafe body h k L next (L.next next)
      return (pos :: seen, L)

/-- `list_for_each_safe` with a body that calls a function for the node it is at, or none. -/
def listForEachSafe (call : ν → Option (ListOp ν)) (L : Links ν) (h : ν) (k : Nat) :
    Option (List ν × Links ν) := do
  let pos ← L.next h
  forEachSafe (fun x L => (call x).elim (some L) (listStep L)) h k L pos (L.next pos)

/-- The call takes the entry out of the list, to nowhere or into another one. -/
inductive Disposes (ls : Lists ν) (h x : ν) : ListOp ν → Prop
  | del : Disposes ls h x (.del x)
  | delInit : Disposes ls h x (.delInit x)
  | move {h' : ν} (hne : h' ≠ h) (hlist : (ls h').isSome = true) : Disposes ls h x (.move x h')
  | moveTail {h' : ν} (hne : h' ≠ h) (hlist : (ls h').isSome = true) :
      Disposes ls h x (.moveTail x h')

theorem Lists.set_isSome {h' : ν} (hsome : (ls h').isSome = true) :
    (ls.set h l h').isSome = true := by
  by_cases hh : h' = h
  · subst hh
    simp
  · rwa [Lists.set_of_ne hh]

/-- Such a call may be made, and leaves the other entries of the list. -/
theorem Disposes.next (hd : Disposes ls h x op) (hl : ls h = some l) (hx : x ∈ l) (hxh : x ≠ h) :
    ∃ ls', ListNext ls op ls' ∧ ls' h = some (l.erase x) ∧
      ∀ h', (ls h').isSome = true → (ls' h').isSome = true := by
  cases hd with
  | del => exact ⟨_, .del hl hx, Lists.set_self .., fun h' => Lists.set_isSome⟩
  | delInit =>
    refine ⟨_, .delInit hl hx, ?_, fun h' hs => Lists.set_isSome (Lists.set_isSome hs)⟩
    rw [Lists.set_of_ne (Ne.symm hxh), Lists.set_self]
  | move hne hlist =>
    obtain ⟨l', hl'⟩ := Option.isSome_iff_exists.mp hlist
    refine ⟨_, .move hl hx ((Lists.set_of_ne hne).trans hl'), ?_,
      fun h' hs => Lists.set_isSome (Lists.set_isSome hs)⟩
    rw [Lists.set_of_ne (Ne.symm hne), Lists.set_self]
  | moveTail hne hlist =>
    obtain ⟨l', hl'⟩ := Option.isSome_iff_exists.mp hlist
    refine ⟨_, .moveTail hl hx ((Lists.set_of_ne hne).trans hl'), ?_,
      fun h' hs => Lists.set_isSome (Lists.set_isSome hs)⟩
    rw [Lists.set_of_ne (Ne.symm hne), Lists.set_self]

omit [DecidableEq ν] in
theorem Disposes.mono (hd : Disposes ls h x op)
    (hkeep : ∀ h', (ls h').isSome = true → (ls' h').isSome = true) : Disposes ls' h x op := by
  cases hd with
  | del => exact .del
  | delInit => exact .delInit
  | move hne hlist => exact .move hne (hkeep _ hlist)
  | moveTail hne hlist => exact .moveTail hne (hkeep _ hlist)

omit [DecidableEq ν] in
/-- The node after one of a ring. -/
theorem next_of_ring {kept rest : List ν} (hring : L.Ring (h :: (kept ++ x :: rest))) :
    L.next x = some (rest.head?.getD h) := by
  have hs := (seg_append.mp hring.seg).2
  cases rest with
  | nil => exact (seg_nil.mp hs).1
  | cons y rest => exact (seg_cons.mp hs).1.1

/-- From a node of the list on, the loop visits the rest of it. -/
theorem forEachSafe_rest {call : ν → Option (ListOp ν)} {kept rest : List ν} {k : Nat}
    (hr : Represents L ls) (hl : ls h = some (kept ++ rest))
    (hcall : ∀ x ∈ rest, ∀ op, call x = some op → Disposes ls h x op) (hk : rest.length < k)
    {pos : ν} (hpos : pos = rest.head?.getD h) :
    ∃ L' ls', forEachSafe (fun x L => (call x).elim (some L) (listStep L)) h k L pos (L.next pos) =
        some (rest, L') ∧
      Run.Trace ListNext ls (rest.filterMap call) ls' ∧ Represents L' ls' ∧
      ls' h = some (kept ++ rest.filter fun x => (call x).isNone) := by
  induction rest generalizing kept k L ls pos with
  | nil =>
    obtain ⟨k, rfl⟩ := Nat.exists_eq_add_of_lt hk
    subst hpos
    exact ⟨L, ls, by simp [forEachSafe], .nil ls, hr, hl⟩
  | cons x rest ih =>
    obtain rfl : pos = x := hpos
    cases k with
    | zero => omega
    | succ k =>
      have hring := hr.ring h _ hl
      have hnext := next_of_ring hring
      have hxh : pos ≠ h := fun he => (List.nodup_cons.mp hring.nodup).1 (by simp [he])
      have hk' : rest.length < k := by simpa using hk
      cases hc : call pos with
      | none =>
        have hkept : ls h = some (kept ++ [pos] ++ rest) := by simpa using hl
        obtain ⟨L', ls', hloop, htrace, hr', hl'⟩ := ih hr hkept
          (fun y hy => hcall y (List.mem_cons_of_mem _ hy)) hk' rfl
        refine ⟨L', ls', ?_, ?_, hr', by simpa [hc] using hl'⟩
        · rw [forEachSafe, if_neg hxh, hc, hnext]
          simp [hloop]
        · rwa [List.filterMap_cons_none hc]
      | some op =>
        have hd := hcall pos (List.mem_cons_self ..) op hc
        obtain ⟨ls₁, hstep, hl₁, hkeep⟩ := hd.next hl (by simp) hxh
        obtain ⟨L₁, hcode, hr₁⟩ := listStep_represents hr hstep
        have hxk : pos ∉ kept := fun hmem =>
          (List.nodup_append'.mp (List.nodup_cons.mp hring.nodup).2).2.2 hmem
            (List.mem_cons_self ..)
        rw [List.erase_append_right _ hxk, List.erase_cons_head] at hl₁
        obtain ⟨L', ls', hloop, htrace, hr', hl'⟩ := ih hr₁ hl₁
          (fun y hy op' hop => (hcall y (List.mem_cons_of_mem _ hy) op' hop).mono hkeep) hk' rfl
        refine ⟨L', ls', ?_, ?_, hr', by simpa [hc] using hl'⟩
        · -- the node saved before the call is still the next one after it
          rw [forEachSafe, if_neg hxh, hc, hnext]
          simp [hcode, hloop]
        · rw [List.filterMap_cons_some hc]
          exact .cons hstep htrace

/-- **The safe walk.** `list_for_each_safe` with a body that takes some of the entries out of the
list, deleting them or moving them to other lists, visits every entry of the list once and in order,
meets no null pointer, and leaves the lists as these calls change them, the other entries in their
order. -/
theorem forEachSafe_visits {call : ν → Option (ListOp ν)} {k : Nat} (hr : Represents L ls)
    (hl : ls h = some l) (hcall : ∀ x ∈ l, ∀ op, call x = some op → Disposes ls h x op)
    (hk : l.length < k) :
    ∃ L' ls', listForEachSafe call L h k = some (l, L') ∧
      Run.Trace ListNext ls (l.filterMap call) ls' ∧ Represents L' ls' ∧
      ls' h = some (l.filter fun x => (call x).isNone) := by
  have hfirst : L.next h = some (l.head?.getD h) := by
    have hs := (hr.ring h l hl).seg
    cases l with
    | nil => exact (seg_nil.mp hs).1
    | cons y l => exact (seg_cons.mp hs).1.1
  have hall : ls h = some ([] ++ l) := hl
  obtain ⟨L', ls', hloop, hrest⟩ := forEachSafe_rest hr hall hcall hk rfl
  exact ⟨L', ls', by simp [listForEachSafe, hfirst, hloop], hrest⟩

end Calls

/-! ## Two lists

A run that makes a list, moves some of it to another and joins both, for the results above. -/

section Example

/-- The lists with the heads 0 and 10. -/
def twoLists (l l' : List Nat) : Lists Nat := Lists.set (Lists.set (fun _ => none) 0 l) 10 l'

def fillOps : List (ListOp Nat) := [.init 0, .init 10, .add 2 0, .addTail 3 0, .add 1 0]

/-- Two entries change to the other list, the rest follows them, and one is deleted. -/
def mixOps : List (ListOp Nat) := [.move 1 10, .moveTail 3 10, .spliceInit 0 10, .del 1]

theorem twoLists_zero (l l' : List Nat) : twoLists l l' 0 = some l := rfl

theorem twoLists_ten (l l' : List Nat) : twoLists l l' 10 = some l' := rfl

theorem twoLists_set_zero (l l' m : List Nat) : (twoLists l l').set 0 m = twoLists m l' := by
  unfold twoLists Lists.set
  rw [Function.update_comm (by decide), Function.update_idem]

theorem twoLists_set_ten (l l' m : List Nat) : (twoLists l l').set 10 m = twoLists l m :=
  Function.update_idem ..

theorem twoLists_free {l l' : List Nat} {x : Nat} (h : x ∉ 0 :: l) (h' : x ∉ 10 :: l') :
    (twoLists l l').Free x :=
  ((Lists.free_none x).set h).set h'

theorem fillOps_trace : Run.Trace ListNext (fun _ => none) fillOps (twoLists [1, 2, 3] []) := by
  have hten : (Lists.set (fun _ => none) 0 []).Free 10 := (Lists.free_none 10).set (by decide)
  refine .cons (.init fun _ _ hl => by cases hl) <|
    .cons (.init fun h l hl hmem => hten h l hl (List.mem_cons_of_mem _ hmem)) ?_
  show Run.Trace ListNext (twoLists [] []) _ _
  refine .cons (.add (twoLists_zero [] []) (twoLists_free (by decide) (by decide))) ?_
  rw [twoLists_set_zero]
  refine .cons (.addTail (twoLists_zero [2] []) (twoLists_free (by decide) (by decide))) ?_
  rw [twoLists_set_zero]
  refine .cons (.add (twoLists_zero [2, 3] []) (twoLists_free (by decide) (by decide))) ?_
  rw [twoLists_set_zero]
  exact .nil _

theorem mixOps_trace : Run.Trace ListNext (twoLists [1, 2, 3] []) mixOps (twoLists [] [2, 3]) := by
  refine .cons (.move (twoLists_zero [1, 2, 3] []) (by decide) (twoLists_ten [2, 3] [])) ?_
  rw [show List.erase [1, 2, 3] 1 = [2, 3] from rfl, twoLists_set_zero, twoLists_set_ten]
  refine .cons (.moveTail (twoLists_zero [2, 3] [1]) (by decide) (twoLists_ten [2] [1])) ?_
  rw [show List.erase [2, 3] 3 = [2] from rfl, twoLists_set_zero, twoLists_set_ten]
  refine .cons (.spliceInit (twoLists_zero [2] [1, 3]) (by simp) (twoLists_ten _ _) (by simp)) ?_
  rw [twoLists_set_ten, twoLists_set_zero]
  refine .cons (.del (twoLists_ten [] [2, 1, 3]) (by decide)) ?_
  rw [show List.erase [2, 1, 3] 1 = [2, 3] from rfl, twoLists_set_ten]
  exact .nil _

theorem lists_represented_twoLists :
    ∃ L', Run.exec listStep ⟨fun _ => none, some⟩ (fillOps ++ mixOps) = some L' ∧
      ∀ h l, twoLists [] [2, 3] h = some l → (∀ n, l.length < n →
        forEach L' h n = some l ∧ L'.forEachPrev h n = some l.reverse) ∧
        (listEmpty L' h = true ↔ l = []) :=
  lists_represented _ (fillOps_trace.append mixOps_trace)

/-- Delete 1, keep 2 and move 3 to the other list. -/
def sortOut (x : Nat) : Option (ListOp Nat) :=
  if x = 1 then some (.del x) else if x = 3 then some (.moveTail x 10) else none

theorem forEachSafe_visits_sortOut : ∃ L L' ls',
    Run.exec listStep ⟨fun _ => none, some⟩ fillOps = some L ∧
      listForEachSafe sortOut L 0 4 = some ([1, 2, 3], L') ∧
      Run.Trace ListNext (twoLists [1, 2, 3] []) [.del 1, .moveTail 3 10] ls' ∧
      Represents L' ls' ∧ ls' 0 = some [2] := by
  obtain ⟨L, hfill, hr⟩ := represents_of_trace ⟨fun _ => none, some⟩ fillOps_trace
  have hcall : ∀ x ∈ [1, 2, 3], ∀ op, sortOut x = some op →
      Disposes (twoLists [1, 2, 3] []) 0 x op := by
    intro x hx op hop
    unfold sortOut at hop
    split at hop
    · cases hop
      exact .del
    · split at hop
      · cases hop
        exact .moveTail (by decide) rfl
      · cases hop
  obtain ⟨L', ls', hloop, htrace, hr', hl'⟩ :=
    forEachSafe_visits hr (twoLists_zero [1, 2, 3] []) hcall (Nat.lt_succ_self 3)
  exact ⟨L, L', ls', hfill, hloop, htrace, hr', hl'⟩

end Example

end Lanes
