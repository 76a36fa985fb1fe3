import Lanes.Lib.Joined
import Lanes.Lib.Run

/-!
# The list operations

The functions of `list.h` on the pointers of all nodes, and what they are for: a family of lists
that have no node in common. A dereferenced null pointer is `none`.

The header says of each function what it does to a list and not when it may be called. `ListNext`
says both, as a relation between families: `add` needs a node that is in no list, `move` and `del`
one that is in some list, and a `splice` two different lists. `Lists/Refine.lean` shows that the
pointers follow it.
-/

namespace Lanes

open Dlist

/-! ## `list.h`

A node is any value with a `next` and a `prev`, a head one of them. The functions with two
underscores take their neighbours as arguments; the others load them first. -/

section Source

variable {ν : Type*} [DecidableEq ν]

/-- `list_add`: the new node becomes the first one of the list. -/
def listAdd (L : Links ν) (new head : ν) : Option (Links ν) := do
  let next ← L.next head
  return L.insert new head next

/-- `list_add_tail`: the new node becomes the last one. -/
def listAddTail (L : Links ν) (new head : ν) : Option (Links ν) := do
  let prev ← L.prev head
  return L.insert new prev head

/-- `__list_del (entry->prev, entry->next)`. -/
def detach (L : Links ν) (entry : ν) : Option (Links ν) := do
  let prev ← L.prev entry
  let next ← L.next entry
  return L.unlink prev next

/-- `list_del`: the node goes and its own pointers become null. -/
def listDel (L : Links ν) (entry : ν) : Option (Links ν) := do
  let L ← detach L entry
  return L.clear entry

/-- `list_del_init`: the node goes and is an empty list of its own. -/
def listDelInit (L : Links ν) (entry : ν) : Option (Links ν) := do
  let L ← detach L entry
  return L.init entry

def listMove (L : Links ν) (entry head : ν) : Option (Links ν) := do
  let L ← detach L entry
  listAdd L entry head

def listMoveTail (L : Links ν) (entry head : ν) : Option (Links ν) := do
  let L ← detach L entry
  listAddTail L entry head

/-- `list_empty`: the test reads `next` alone. -/
def listEmpty (L : Links ν) (head : ν) : Bool := L.next head == some head

/-- `__list_splice`. -/
def joinLists (L : Links ν) (list head : ν) : Option (Links ν) := do
  let first ← L.next list
  let last ← L.prev list
  let behind ← L.next head
  return L.splice first last head behind

/-- `list_splice`: `list` still points at the nodes it gave away. -/
def listSplice (L : Links ν) (list head : ν) : Option (Links ν) :=
  if listEmpty L list then some L else joinLists L list head

def listSpliceInit (L : Links ν) (list head : ν) : Option (Links ν) :=
  if listEmpty L list then some L
  else do
    let L ← joinLists L list head
    return L.init list

end Source

/-- A call of one of the functions. -/
inductive ListOp (ν : Type*) where
  | init (head : ν)
  | add (new head : ν)
  | addTail (new head : ν)
  | del (entry : ν)
  | delInit (entry : ν)
  | move (entry head : ν)
  | moveTail (entry head : ν)
  | splice (list head : ν)
  | spliceInit (list head : ν)

def listStep {ν : Type*} [DecidableEq ν] (L : Links ν) : ListOp ν → Option (Links ν)
  | .init head => some (L.init head)
  | .add new head => listAdd L new head
  | .addTail new head => listAddTail L new head
  | .del entry => listDel L entry
  | .delInit entry => listDelInit L entry
  | .move entry head => listMove L entry head
  | .moveTail entry head => listMoveTail L entry head
  | .splice list head => listSplice L list head
  | .spliceInit list head => listSpliceInit L list head

/-! ## Families of lists

A list is known by its head and holds the nodes behind it, first to last. -/

/-- The nodes behind each head. -/
abbrev Lists (ν : Type*) := ν → Option (List ν)

section Family

variable {ν : Type*}

/-- The node is in no list, and heads none. -/
def Lists.Free (ls : Lists ν) (x : ν) : Prop := ∀ h l, ls h = some l → x ∉ h :: l

variable [DecidableEq ν]

def Lists.set (ls : Lists ν) (h : ν) (l : List ν) : Lists ν := Function.update ls h (some l)

omit [DecidableEq ν] in
theorem Lists.free_none (x : ν) : Lists.Free (fun _ => none) x := fun _ _ hl => by cases hl

theorem Lists.Free.set {ls : Lists ν} {x h : ν} {l : List ν} (hx : ls.Free x) (hl : x ∉ h :: l) :
    (ls.set h l).Free x := by
  intro h' l' hl'
  by_cases hh : h' = h
  · subst hh
    rw [Lists.set, Function.update_self] at hl'
    cases hl'
    exact hl
  · rw [Lists.set, Function.update_of_ne hh] at hl'
    exact hx h' l' hl'

/-- What a call means for the lists, where it may be made. -/
inductive ListNext : Lists ν → ListOp ν → Lists ν → Prop
  | init {ls : Lists ν} {h : ν} (hout : ∀ h' l, ls h' = some l → h ∉ l) :
      ListNext ls (.init h) (ls.set h [])
  | add {ls : Lists ν} {x h : ν} {l : List ν} (hl : ls h = some l) (hx : ls.Free x) :
      ListNext ls (.add x h) (ls.set h (x :: l))
  | addTail {ls : Lists ν} {x h : ν} {l : List ν} (hl : ls h = some l) (hx : ls.Free x) :
      ListNext ls (.addTail x h) (ls.set h (l ++ [x]))
  | del {ls : Lists ν} {x h : ν} {l : List ν} (hl : ls h = some l) (hx : x ∈ l) :
      ListNext ls (.del x) (ls.set h (l.erase x))
  | delInit {ls : Lists ν} {x h : ν} {l : List ν} (hl : ls h = some l) (hx : x ∈ l) :
      ListNext ls (.delInit x) ((ls.set h (l.erase x)).set x [])
  | move {ls : Lists ν} {x h h' : ν} {l l' : List ν} (hl : ls h = some l) (hx : x ∈ l)
      (hl' : ls.set h (l.erase x) h' = some l') :
      ListNext ls (.move x h') ((ls.set h (l.erase x)).set h' (x :: l'))
  | moveTail {ls : Lists ν} {x h h' : ν} {l l' : List ν} (hl : ls h = some l) (hx : x ∈ l)
      (hl' : ls.set h (l.erase x) h' = some l') :
      ListNext ls (.moveTail x h') ((ls.set h (l.erase x)).set h' (l' ++ [x]))
  | spliceEmpty {ls : Lists ν} {s h : ν} (hs : ls s = some []) : ListNext ls (.splice s h) ls
  -- the nodes leave the list `s`, whose head still points to them
  | splice {ls : Lists ν} {s h : ν} {l l' : List ν} (hs : ls s = some l) (hne : l ≠ [])
      (hh : ls h = some l') (hsh : s ≠ h) :
      ListNext ls (.splice s h) (Function.update (ls.set h (l ++ l')) s none)
  | spliceInitEmpty {ls : Lists ν} {s h : ν} (hs : ls s = some []) :
      ListNext ls (.spliceInit s h) ls
  | spliceInit {ls : Lists ν} {s h : ν} {l l' : List ν} (hs : ls s = some l) (hne : l ≠ [])
      (hh : ls h = some l') (hsh : s ≠ h) :
      ListNext ls (.spliceInit s h) ((ls.set h (l ++ l')).set s [])

end Family

end Lanes
