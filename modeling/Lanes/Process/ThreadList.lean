import Lanes.Lists.Refine
import Lanes.Process.Registered

/-!
# The master thread list in memory

`MTL` is a list of `list.h`: `start_supervisor` makes it an empty one and `new_thread` puts each
entry in front of the others, from both threads. Here the calls of a run are made on the pointers.

The states of the process have the list as a list; this file joins them to `Lists/Refine.lean`. Each
step of a run is a call that may be made, or none (`trace_main`, `trace_sup`). What that asks of a
new entry is that it is in no list yet, and this is the uniqueness of the numbers
(`Registered.ids_nodup`). **`threadList_walked`** is the result on the pointers.
-/

namespace Lanes

open Dlist

/-! ## The calls of a run

Read off the step that is about to be taken. Signals call nothing, and most statements neither.
-/

/-- The function of `list.h` that a step calls. The head of `MTL` is `none`, an entry the number of
its thread. -/
def listCall (s : Proc) : ProcAction → List (ListOp (Option Nat))
  | .main =>
    match s.main with
    | .initThreadList => [.init none]
    | .register id => [.add (some id) none]
    | _ => []
  | .sup =>
    match s.sup with
    | .register id _ _ => [.add (some id) none]
    | _ => []
  | .signal _ => []

/-- The calls of a run. -/
def listCalls (w : World) : Proc → List ProcAction → List (ListOp (Option Nat))
  | _, [] => []
  | s, a :: as => listCall s a ++ (procStep w s a).elim [] fun s' => listCalls w s' as

/-- `init_thread_list` has returned. -/
def MainAt.listed? : MainAt → Bool
  | .install _ | .parseArgs | .loadConfig | .setRun | .setRunning | .initThreadList => false
  | _ => true

/-- The lists of a state: `MTL` alone, and not even that before it is made. -/
def Proc.lists (s : Proc) : Lists (Option Nat) := fun h =>
  if h = none ∧ s.main.listed? = true then some (s.mtl.map fun e => some e.1) else none

/-! ## Every step calls what it may

Until `init_thread_list` has returned there is no list, and the pointers hold what they held. -/

section Calls

variable {w : World} {s s' : Proc} {a : ProcAction} {as : List ProcAction} {id : Nat} {job : Job}

theorem lists_congr (hmain : s'.main.listed? = s.main.listed?) (hmtl : s'.mtl = s.mtl) :
    s'.lists = s.lists := by
  unfold Proc.lists
  rw [hmain, hmtl]

/-- A new entry is put in front of the others. -/
theorem trace_register (hlisted : s.main.listed? = true) (hlisted' : s'.main.listed? = true)
    (hmtl : s'.mtl = (id, job) :: s.mtl) (hnd : (s'.mtl.map Prod.fst).Nodup) :
    Run.Trace ListNext s.lists [.add (some id) none] s'.lists := by
  have hl : s.lists none = some (s.mtl.map fun e => some e.1) := if_pos ⟨rfl, hlisted⟩
  have hfree : s.lists.Free (some id) := by
    intro h l hhl hmem
    unfold Proc.lists at hhl
    split at hhl
    · rename_i hh
      cases hhl
      rw [hh.1] at hmem
      simp only [List.mem_cons, reduceCtorEq, false_or, List.mem_map] at hmem
      obtain ⟨e, he, hid⟩ := hmem
      cases hid
      rw [hmtl, List.map_cons, List.nodup_cons] at hnd
      have hold : e.1 ∈ s.mtl.map Prod.fst := List.mem_map_of_mem he
      exact hnd.1 hold
    · cases hhl
  have hset : s'.lists = s.lists.set none (some id :: s.mtl.map fun e => some e.1) := by
    funext h
    by_cases hh : h = none
    · subst hh
      rw [Lists.set_self, Proc.lists, if_pos ⟨rfl, hlisted'⟩, hmtl]
      rfl
    · rw [Lists.set_of_ne hh, Proc.lists, Proc.lists, if_neg fun h' => hh h'.1,
        if_neg fun h' => hh h'.1]
  rw [hset]
  exact .cons (.add hl hfree) (.nil _)

/-- A step without a call leaves the lists as they are. -/
theorem trace_quiet (hmain : s'.main.listed? = s.main.listed?) (hmtl : s'.mtl = s.mtl) :
    Run.Trace ListNext s.lists [] s'.lists := by
  rw [lists_congr hmain hmtl]
  exact .nil _

theorem trace_orDie {next : Proc} (hmain : next.main.listed? = s.main.listed?)
    (hmtl : next.mtl = s.mtl) (returns : Bool) :
    Run.Trace ListNext s.lists [] (s.orDie returns next).lists := by
  unfold Proc.orDie
  split
  · exact trace_quiet hmain hmtl
  · exact trace_quiet rfl rfl

/-- A step of `main` makes its call on the list. -/
theorem trace_main (hnd : (s'.mtl.map Prod.fst).Nodup) (h : mainStep w s = some s') :
    Run.Trace ListNext s.lists (listCall s .main) s'.lists := by
  unfold mainStep at h
  unfold listCall
  cases hm : s.main with
  | install i =>
    rw [hm] at h
    cases h
    refine trace_quiet ?_ rfl
    rw [hm]
    dsimp only
    split <;> rfl
  | parseArgs | loadConfig =>
    rw [hm] at h
    obtain rfl := Option.some.inj h
    refine trace_orDie ?_ ?_ _
    · rw [hm]
      rfl
    · rfl
  | setRun | setRunning | create id | count id | unloadConfig =>
    rw [hm] at h
    cases h
    exact trace_quiet (by rw [hm]; rfl) rfl
  | initThreadList =>
    rw [hm] at h
    cases h
    have hnone : s.lists = fun _ => none := by
      funext h
      simp [Proc.lists, hm, MainAt.listed?]
    have hset : Proc.lists { s with main := .takeId, mtl := [] } = s.lists.set none [] := by
      funext h
      rw [hnone]
      by_cases hh : h = none <;> simp [Proc.lists, MainAt.listed?, Lists.set, hh]
    rw [hset]
    exact .cons (.init fun h l hl => by rw [hnone] at hl; cases hl) (.nil _)
  | takeId =>
    rw [hm] at h
    cases h
    exact trace_quiet (by rw [hm]; rfl) rfl
  | join id =>
    rw [hm] at h
    dsimp only at h
    split at h <;> cases h
    exact trace_quiet (by rw [hm]; rfl) rfl
  | done =>
    rw [hm] at h
    cases h
    exact trace_quiet (by rw [hm]) rfl
  | register id =>
    rw [hm] at h
    cases h
    exact trace_register (by rw [hm]; rfl) rfl rfl hnd

theorem listed_of_started {m : MainAt} (hm : m.started = true) : m.listed? = true := by
  cases m <;> first | rfl | cases hm

/-- A step of `supervisor` makes its call; the list has been made by then. -/
theorem trace_sup (hnd : (s'.mtl.map Prod.fst).Nodup) (hi : ProcInv s)
    (h : supStep w s = some s') :
    Run.Trace ListNext s.lists (listCall s .sup) s'.lists := by
  unfold supStep at h
  unfold listCall
  cases hs : s.sup with
  | unborn | ended =>
    rw [hs] at h
    cases h
  | takeId todo =>
    rw [hs] at h
    cases todo <;> obtain rfl := Option.some.inj h
    · refine trace_orDie ?_ ?_ _ <;> rfl
    · exact trace_quiet rfl rfl
  | create id job todo | count id job todo | print | test | showOn | showOff =>
    rw [hs] at h
    cases h
    exact trace_quiet rfl rfl
  | register id job todo =>
    rw [hs] at h
    cases h
    have hlisted : s.main.listed? = true := listed_of_started (by
      rw [← Bool.not_eq_false, ← hi.unborn, hs]
      simp)
    exact trace_register hlisted hlisted rfl hnd
  | dropPrivs =>
    rw [hs] at h
    obtain rfl := Option.some.inj h
    refine trace_orDie ?_ ?_ _ <;> rfl

theorem signal_mtl (s : Proc) (sig : Nat) :
    (s.signal sig).main = s.main ∧ (s.signal sig).mtl = s.mtl := by
  rcases signal_cases s sig with ⟨e, hs, -⟩ | ⟨-, hs⟩ | hs <;> rw [hs] <;> exact ⟨rfl, rfl⟩

theorem trace_step (hi : ProcInv s) (hnd : (s'.mtl.map Prod.fst).Nodup)
    (h : procStep w s a = some s') : Run.Trace ListNext s.lists (listCall s a) s'.lists := by
  obtain ⟨-, ⟨rfl, hmain⟩ | ⟨rfl, hsup⟩ | ⟨sig, rfl, rfl⟩⟩ := procStep_cases h
  · exact trace_main hnd hmain
  · exact trace_sup hnd hi hsup
  · obtain ⟨hmain, hmtl⟩ := signal_mtl s sig
    exact trace_quiet (by rw [hmain]) hmtl

/-- The calls of a run that goes on from a state that can be reached. -/
theorem trace_run {before : List ProcAction}
    (hbefore : Run.exec (procStep w) freshProc before = some s)
    (hrun : Run.exec (procStep w) s as = some s') :
    Run.Trace ListNext s.lists (listCalls w s as) s'.lists := by
  induction as generalizing s before with
  | nil =>
    cases hrun
    exact .nil _
  | cons a as ih =>
    obtain ⟨m, hm, hrest⟩ := Run.exec_cons.mp hrun
    have hreach : Run.exec (procStep w) freshProc (before ++ [a]) = some m := by
      rw [Run.exec_append, hbefore]
      exact Run.exec_cons.mpr ⟨m, hm, rfl⟩
    obtain ⟨-, done, hr⟩ := exec_registered hreach
    rw [listCalls, hm]
    exact (trace_step (exec_inv hbefore freshProc_inv) hr.ids_nodup hm).append (ih hreach hrest)

/-- **The master thread list.** In every run the calls that the two threads make on `MTL`, on
whatever the memory held before, meet no null pointer, and from `init_thread_list` on both walks
over it visit the threads that have been entered: `list_for_each` from the newest to the oldest,
`list_for_each_prev` the other way. -/
theorem threadList_walked (L : Links (Option Nat))
    (hrun : Run.exec (procStep w) freshProc as = some s) :
    ∃ L', Run.exec listStep L (listCalls w freshProc as) = some L' ∧
      (s.main.listed? = true → ∀ n, s.mtl.length < n →
        forEach L' none n = some (s.mtl.map fun e => some e.1) ∧
        L'.forEachPrev none n = some (s.mtl.map fun e => some e.1).reverse) := by
  have hstart : freshProc.lists = fun _ => none := by
    funext h
    simp [Proc.lists, freshProc, MainAt.listed?]
  have hreach : Run.exec (procStep w) freshProc [] = some freshProc := rfl
  have htrace := trace_run hreach hrun
  rw [hstart] at htrace
  obtain ⟨L', hexec, hr⟩ := represents_of_trace L htrace
  refine ⟨L', hexec, fun hlisted n hn => ?_⟩
  have hl : s.lists none = some (s.mtl.map fun e => some e.1) := if_pos ⟨rfl, hlisted⟩
  have hn' : (s.mtl.map fun e => some e.1).length < n := by rwa [List.length_map]
  exact ⟨hr.forEach hl hn', hr.forEachPrev hl hn'⟩

end Calls

theorem threadList_walked_finished :
    ∃ L', Run.exec listStep ⟨fun _ => none, fun _ => some none⟩
        (listCalls oneTunnel freshProc (started ++ .signal sigTerm :: finished)) = some L' ∧
      (finishedProc.main.listed? = true → ∀ n, finishedProc.mtl.length < n →
        forEach L' none n = some (finishedProc.mtl.map fun e => some e.1) ∧
        L'.forEachPrev none n = some (finishedProc.mtl.map fun e => some e.1).reverse) :=
  threadList_walked _ exec_finished

end Lanes
