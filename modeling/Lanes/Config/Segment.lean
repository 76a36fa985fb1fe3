import Lanes.Config.Reading

/-!
# Which pair goes to which peer

The abstract loader keeps strings instead of arrays and, for each peer, the pairs applied to it
instead of the structure. The loader follows it: the k-th structure that `malloc` hands out holds
the k-th peer, and all but the last are linked into `MPL`, newest first.

* **`Seg`**: the state of the abstract loader. It has no heap and it never fails: where the loader
  ends the process at a pair, the abstract loader goes on, and `Seg.AcceptsAll` says that there is
  no such pair.
* **`Follows`**: the simulation. Its step is `Follows.event`, one lemma for each event below it, and
  `Follows.events_isSome` is the run: the loader gets through the events exactly if they are all
  accepted.
* **`Follows.finish`**: the last peer is linked after the loops, so that the list is complete only
  there, and only if there is a peer at all.
-/

namespace Lanes

/-! ## Strings in the loader's arrays

The three arrays of the loader have 256 bytes, of which a copy writes 255. So a string of more bytes
is cut, and ends wherever the last byte of the array lets it end. -/

/-- The string in an array of 256 bytes after `strncpy (array, s, 255)`, where `last` is the byte
that the copy leaves. -/
def clip (last : UInt8) (s : CStr) : CStr := cstr (Mem.strncpyBytes s 255 ++ [last])

theorem str_copied (m : Mem) (s : CStr) : (m.strncpy 0 s 255).str 0 256 = clip (m 255) s := by
  have hcopy : (m.strncpy 0 s 255).read 0 255 = Mem.strncpyBytes s 255 :=
    Mem.read_write_of_length (Mem.strncpyBytes_length s 255)
  have hlast : (m.strncpy 0 s 255).read 255 1 = [m 255] := by
    simp [Mem.read, Mem.strncpy_apply_of_ge]
  rw [Mem.str, show 256 = 255 + 1 from rfl, Mem.read_add, hcopy, Nat.zero_add, hlast, clip]

theorem copied_last (m : Mem) (s : CStr) : m.strncpy 0 s 255 255 = m 255 :=
  Mem.strncpy_apply_of_ge (Nat.le_refl _)

/-- A string of fewer than 255 bytes is copied whole. -/
theorem clip_of_short {last : UInt8} {s : CStr} (h : s.length < 255) : clip last s = s := by
  have hcopy := str_copied (fun _ => last) s
  rw [← hcopy]
  exact Mem.str_strncpy h (by omega)

/-- The first 255 bytes of a longer string are copied. -/
theorem clip_take {last : UInt8} {s : CStr} {n : Nat} (hn : n ≤ 255) :
    (clip last s).val.take n = s.val.take n := by
  rcases Nat.lt_or_ge s.length 255 with hshort | hlong
  · rw [clip_of_short hshort]
  · have hbytes : Mem.strncpyBytes s 255 = s.val.take 255 := by
      rw [Mem.strncpyBytes, Nat.sub_eq_zero_of_le hlong, List.replicate_zero, List.append_nil]
    have hall : (s.val.take 255).takeWhile (· != 0) = s.val.take 255 :=
      cstr_of_not_mem fun h => s.property (List.mem_of_mem_take h)
    have hlen : (s.val.take 255).length = 255 := by
      simp only [CStr.length] at hlong
      rw [List.length_take]
      omega
    show ((Mem.strncpyBytes s 255 ++ [last]).takeWhile (· != 0)).take n = _
    rw [hbytes, List.takeWhile_append, hall, if_pos rfl,
      List.take_append_of_le_length (by rw [hlen]; exact hn), List.take_take, Nat.min_eq_left hn]

/-- A comparison of the first bytes does not see that a string was copied. -/
theorem strncmpEq_clip (s : CStr) (last : UInt8) (t : CStr) {n : Nat} (hn : n ≤ 255) :
    strncmpEq s (clip last t) n = strncmpEq s t n := by
  rw [strncmpEq, strncmpEq, clip_take hn]

/-! ## The abstract loader

The same tests as in the source, on strings. `value` is the heart of it: a value may be remembered
as a name, and then it goes to the newest peer or starts the next one. -/

/-- A peer: the name it was started with and the pairs applied to it. -/
structure PeerSpec where
  name : CStr
  pairs : List (CStr × CStr)

/-- The last bytes of the three arrays, which no copy reaches. -/
structure Spare where
  key : UInt8
  name : UInt8
  lastName : UInt8

/-- The strings in the arrays, the section and the peers so far, newest first. -/
structure Seg where
  key : CStr
  name : CStr
  lastName : CStr
  sequence : Nat
  peers : List PeerSpec

namespace Seg

/-- A value of the key `name` and of its extensions is remembered. -/
def remember (sp : Spare) (seg : Seg) (value : CStr) : Seg :=
  if strncmpEq "name" seg.key 4 then { seg with name := clip sp.name value } else seg

/-- The pair goes to the newest peer; otherwise it starts a peer with the name remembered. -/
def Continues (seg : Seg) : Prop :=
  seg.peers ≠ [] ∧ strncmpEq seg.key "name" seg.key.length = false ∧
    strncmpEq seg.lastName seg.name seg.lastName.length = true

instance (seg : Seg) : Decidable seg.Continues := inferInstanceAs (Decidable (_ ∧ _ ∧ _))

/-- Add a pair to the newest peer. -/
def extend (seg : Seg) (value : CStr) : Seg :=
  match seg.peers with
  | [] => seg
  | p :: ps => { seg with peers := { p with pairs := p.pairs ++ [(seg.key, value)] } :: ps }

def startPeer (sp : Spare) (seg : Seg) : Seg :=
  { seg with
    peers := ⟨seg.name, []⟩ :: seg.peers
    lastName := clip sp.lastName seg.name }

def value (sp : Spare) (seg : Seg) (v : CStr) : Seg :=
  let seg := seg.remember sp v
  if seg.sequence = seqSpeer then
    if seg.Continues then seg.extend v else seg.startPeer sp
  else seg

def startSection (seg : Seg) : Seg :=
  if strncmpEq "symmetric-peers" seg.key 15 then { seg with sequence := seqSpeer }
  else if strncmpEq "assymetric-peers" seg.key 16 then { seg with sequence := seqApeer }
  else seg

def event (sp : Spare) (seg : Seg) : Event → Seg
  | .key k => { seg with key := clip sp.key k }
  | .sectionStart => seg.startSection
  | .value v => seg.value sp v

def events (sp : Spare) (seg : Seg) (evs : List Event) : Seg := evs.foldl (Seg.event sp) seg

theorem events_append (sp : Spare) (seg : Seg) (xs ys : List Event) :
    seg.events sp (xs ++ ys) = (seg.events sp xs).events sp ys := List.foldl_append

end Seg

/-! ## The loader follows the abstract loader

Structure 0 is the head of the list, and the structure of the k-th peer is the k-th that `malloc`
hands out, with the contents it came with (`garbage`). -/

/-- A structure as `malloc` hands it out, numbered and named. -/
def namedPeer (garbage : PeerCtx) (id : Nat) (name : CStr) : PeerCtx :=
  { garbage with id := id }.copy .name name 255

/-- The structures 1, 2, … hold the peers, of which `peers` has the newest first. -/
def InHeap (env : Env) (garbage heap : Nat → PeerCtx) : List PeerSpec → Prop
  | [] => True
  | p :: ps =>
    applyPairs env p.pairs (namedPeer (garbage (ps.length + 1)) (ps.length + 1) p.name) =
      some (heap (ps.length + 1)) ∧ InHeap env garbage heap ps

/-- The nodes `n`, …, 1. -/
def nodes : Nat → List Nat
  | 0 => []
  | n + 1 => (n + 1) :: nodes n

/-- All peers but the newest are linked, once there is one. -/
def Linked (mpl : Dlist.Links Nat) : List PeerSpec → Prop
  | [] => mpl.next 0 = none ∧ mpl.prev 0 = none
  | _ :: ps => Dlist.Circular mpl 0 (nodes ps.length)

structure Follows (env : Env) (garbage : Nat → PeerCtx) (sp : Spare) (ld : Loader) (seg : Seg) :
    Prop where
  spare : ld.key 255 = sp.key ∧ ld.name 255 = sp.name ∧ ld.lastName 255 = sp.lastName
  key : ld.key.str 0 256 = seg.key
  name : ld.name.str 0 256 = seg.name
  lastName : ld.lastName.str 0 256 = seg.lastName
  sequence : ld.sequence = seg.sequence
  peerInit : ld.peerInit = true ↔ seg.peers ≠ []
  peerid : ld.peerid = seg.peers.length + 1
  peer : seg.peers ≠ [] → ld.peer = seg.peers.length
  allocated : ld.allocated = seg.peers.length
  heap : InHeap env garbage ld.heap seg.peers
  unused : ∀ j, seg.peers.length < j → ld.heap j = garbage j
  mpl : Linked ld.mpl seg.peers

section Follows

variable {env : Env} {garbage heap : Nat → PeerCtx} {sp : Spare} {ld ld' : Loader} {seg : Seg}
  {ps : List PeerSpec} {n : Nat}

theorem mem_nodes {j : Nat} : j ∈ nodes n ↔ 0 < j ∧ j ≤ n := by
  induction n with
  | zero =>
    simp only [nodes, List.not_mem_nil, false_iff]
    omega
  | succ n ih =>
    rw [nodes, List.mem_cons, ih]
    omega

theorem nodes_length : (nodes n).length = n := by
  induction n with
  | zero => rfl
  | succ n ih => rw [nodes, List.length_cons, ih]

/-- A structure that no peer of the list uses may change. -/
theorem InHeap.update (h : InHeap env garbage heap ps) {j : Nat} (hj : ps.length < j)
    (p : PeerCtx) : InHeap env garbage (Function.update heap j p) ps := by
  induction ps with
  | nil => trivial
  | cons q ps ih =>
    rw [List.length_cons] at hj
    refine ⟨?_, ih h.2 (by omega)⟩
    rw [Function.update_of_ne (by omega)]
    exact h.1

theorem Follows.setKey (h : Follows env garbage sp ld seg) (k : CStr) :
    Follows env garbage sp (ld.setKey k) { seg with key := clip sp.key k } :=
  { h with
    spare := ⟨(copied_last ld.key k).trans h.spare.1, h.spare.2⟩
    key := by rw [← h.spare.1]; exact str_copied ld.key k }

theorem Follows.startSection (h : Follows env garbage sp ld seg) :
    Follows env garbage sp ld.startSection seg.startSection := by
  unfold Loader.startSection Seg.startSection
  simp only [h.key]
  split
  · exact { h with sequence := rfl }
  · split
    · exact { h with sequence := rfl }
    · exact h

/-- The copy of a `name` value. -/
theorem Follows.remember (h : Follows env garbage sp ld seg) (v : CStr) :
    Follows env garbage sp
      (if strncmpEq "name" seg.key 4 then { ld with name := ld.name.strncpy 0 v 255 } else ld)
      (seg.remember sp v) := by
  unfold Seg.remember
  split
  · exact
      { h with
        spare := ⟨h.spare.1, (copied_last ld.name v).trans h.spare.2.1, h.spare.2.2⟩
        name := by rw [← h.spare.2.1]; exact str_copied ld.name v }
  · exact h

/-- The peer before the new one is linked; the new one is allocated, numbered and named. -/
theorem Follows.newPeer (h : Follows env garbage sp ld seg) :
    Follows env garbage sp ld.newPeer (seg.startPeer sp) := by
  -- linking the previous peer touches the list heads only
  have hlinked : ∃ mpl, ld.newPeer =
      { ld with
        peerInit := true
        allocated := ld.allocated + 1
        peer := ld.allocated + 1
        peerid := ld.peerid + 1
        heap := Function.update ld.heap (ld.allocated + 1)
          ({ ld.heap (ld.allocated + 1) with id := ld.peerid }.copy .name seg.name 255)
        lastName := ld.lastName.strncpy 0 seg.name 255
        mpl := mpl } ∧ Dlist.Circular mpl 0 (nodes seg.peers.length) := by
    unfold Loader.newPeer
    simp only [← h.name]
    cases hpeers : seg.peers with
    | nil =>
      have hinit : ¬ ld.peerInit = true := fun ht => h.peerInit.mp ht hpeers
      rw [if_neg hinit]
      exact ⟨ld.mpl.init 0, rfl, Dlist.circular_init _ _⟩
    | cons p ps =>
      have hne : seg.peers ≠ [] := by simp [hpeers]
      have hinit : ld.peerInit = true := h.peerInit.mpr hne
      have hmpl := h.mpl
      have hpeer := h.peer hne
      rw [hpeers] at hmpl hpeer
      rw [if_pos hinit]
      refine ⟨ld.mpl.add ld.peer 0, by rw [← hinit]; rfl, ?_⟩
      rw [hpeer]
      exact hmpl.add (by simp [mem_nodes])
  obtain ⟨mpl, heq, hcirc⟩ := hlinked
  have hgarbage : ld.heap (seg.peers.length + 1) = garbage (seg.peers.length + 1) :=
    h.unused _ (Nat.lt_succ_self _)
  rw [heq, h.allocated]
  exact
    { spare := ⟨h.spare.1, h.spare.2.1, (copied_last ld.lastName seg.name).trans h.spare.2.2⟩
      key := h.key
      name := h.name
      lastName := by
        rw [Seg.startPeer, ← h.spare.2.2]
        exact str_copied ld.lastName seg.name
      sequence := h.sequence
      peerInit := by simp [Seg.startPeer]
      peerid := by simp [Seg.startPeer, h.peerid]
      peer := fun _ => rfl
      allocated := rfl
      heap := by
        refine ⟨?_, h.heap.update (Nat.lt_succ_self _) _⟩
        have hid : ((seg.peers.length + 1 : Nat) : Int) = seg.peers.length + 1 := rfl
        simp only [applyPairs_nil, Function.update_self, namedPeer, hgarbage, h.peerid, hid]
      unused := fun j hj => by
        have hj' : seg.peers.length + 1 < j := hj
        exact (Function.update_of_ne (by omega) _ _).trans (h.unused j (by omega))
      mpl := hcirc }

/-- A pair for the newest peer changes its structure only. -/
theorem Follows.extend {v : CStr} {peer : PeerCtx} (h : Follows env garbage sp ld seg)
    (hne : seg.peers ≠ []) (happly : applyKey env seg.key v (ld.heap ld.peer) = some peer) :
    Follows env garbage sp { ld with heap := Function.update ld.heap ld.peer peer }
      (seg.extend v) := by
  obtain ⟨p, ps, hpeers⟩ := List.exists_cons_of_ne_nil hne
  have hpeer := h.peer hne
  have hheap := h.heap
  have hunused := h.unused
  have hmpl := h.mpl
  rw [hpeers, List.length_cons] at hpeer hunused
  rw [hpeers] at hheap hmpl
  obtain ⟨hnewest, hrest⟩ := hheap
  rw [hpeer] at happly
  have hextend : seg.extend v =
      { seg with peers := { p with pairs := p.pairs ++ [(seg.key, v)] } :: ps } := by
    simp only [Seg.extend, hpeers]
  rw [hextend, hpeer]
  -- only the head of the list of peers grows, by the pair that its structure takes
  exact
    { spare := h.spare
      key := h.key
      name := h.name
      lastName := h.lastName
      sequence := h.sequence
      peerInit := by simp [h.peerInit, hne]
      peerid := by simp [h.peerid, hpeers]
      peer := fun _ => rfl
      allocated := by simp [h.allocated, hpeers]
      heap := by
        refine ⟨?_, hrest.update (Nat.lt_succ_self _) peer⟩
        have hself : Function.update ld.heap (ps.length + 1) peer (ps.length + 1) = peer :=
          Function.update_self ..
        rw [applyPairs_concat, hnewest, Option.bind_some, happly]
        exact congrArg some hself.symm
      unused := fun j hj => by
        have hj' : ps.length + 1 < j := hj
        exact (Function.update_of_ne (by omega) _ _).trans (hunused j hj)
      mpl := hmpl }

@[simp] theorem remember_key (seg : Seg) (v : CStr) : (seg.remember sp v).key = seg.key := by
  unfold Seg.remember
  split <;> rfl

@[simp] theorem remember_sequence (seg : Seg) (v : CStr) :
    (seg.remember sp v).sequence = seg.sequence := by
  unfold Seg.remember
  split <;> rfl

@[simp] theorem remember_peers (seg : Seg) (v : CStr) :
    (seg.remember sp v).peers = seg.peers := by
  unfold Seg.remember
  split <;> rfl

/-- The pair is one that the newest peer accepts, if it goes to that peer at all. -/
def Seg.Accepts (env : Env) (sp : Spare) (seg : Seg) (v : CStr) : Prop :=
  seg.sequence = seqSpeer → (seg.remember sp v).Continues → Accepted env seg.key v

/-- The loader's branches on a value are those of the abstract loader. -/
theorem Follows.entryValue_eq (h : Follows env garbage sp ld seg) (v : CStr) :
    ∃ ld₁, Follows env garbage sp ld₁ (seg.remember sp v) ∧
      ld.entryValue env v =
        if seg.sequence = seqSpeer then
          if (seg.remember sp v).Continues then
            (applyKey env seg.key v (ld₁.heap ld₁.peer)).map fun peer =>
              { ld₁ with heap := Function.update ld₁.heap ld₁.peer peer }
          else some ld₁.newPeer
        else some ld₁ := by
  have h₁ := h.remember v
  refine ⟨_, h₁, ?_⟩
  unfold Loader.entryValue
  simp only [h.key]
  generalize (if strncmpEq "name" seg.key 4 = true then
    { ld with name := ld.name.strncpy 0 v 255 } else ld) = ld₁ at h₁ ⊢
  have hcont : (seg.remember sp v).Continues ↔ ld₁.peerInit = true ∧
      strncmpEq seg.key "name" seg.key.length = false ∧
        strncmpEq (ld₁.lastName.str 0 256) (ld₁.name.str 0 256) (ld₁.lastName.str 0 256).length =
          true := by
    rw [Seg.Continues, h₁.peerInit, h₁.lastName, h₁.name, remember_key]
  simp only [h₁.sequence, remember_sequence, hcont]

theorem Follows.value (h : Follows env garbage sp ld seg) {v : CStr}
    (hv : ld.entryValue env v = some ld') : Follows env garbage sp ld' (seg.value sp v) := by
  obtain ⟨ld₁, h₁, heq⟩ := h.entryValue_eq v
  rw [heq] at hv
  unfold Seg.value
  simp only [remember_sequence]
  split at hv
  · rename_i hseq
    rw [if_pos hseq]
    split at hv
    · rename_i hcont
      rw [if_pos hcont]
      obtain ⟨peer, happly, rfl⟩ := Option.map_eq_some_iff.mp hv
      exact h₁.extend hcont.1 (by rwa [remember_key])
    · rename_i hcont
      cases hv
      rw [if_neg hcont]
      exact h₁.newPeer
  · rename_i hseq
    cases hv
    rw [if_neg hseq]
    exact h₁

theorem Follows.value_isSome (h : Follows env garbage sp ld seg) {v : CStr}
    (haccept : seg.Accepts env sp v) : ∃ ld', ld.entryValue env v = some ld' := by
  obtain ⟨ld₁, h₁, heq⟩ := h.entryValue_eq v
  rw [heq]
  split
  · split
    · rename_i hseq hcont
      obtain ⟨peer, hpeer⟩ := Option.isSome_iff_exists.mp
        ((applyKey_isSome (ld₁.heap ld₁.peer)).mpr (haccept hseq hcont))
      exact ⟨_, by rw [hpeer]; rfl⟩
    · exact ⟨_, rfl⟩
  · exact ⟨_, rfl⟩

/-- Conversely, a pair that goes to the newest peer was accepted. -/
theorem Follows.accepts (h : Follows env garbage sp ld seg) {v : CStr}
    (hsome : ∃ ld', ld.entryValue env v = some ld') : seg.Accepts env sp v := by
  intro hseq hcont
  obtain ⟨ld₁, h₁, heq⟩ := h.entryValue_eq v
  obtain ⟨ld', hv⟩ := hsome
  rw [heq, if_pos hseq, if_pos hcont] at hv
  obtain ⟨peer, happly, -⟩ := Option.map_eq_some_iff.mp hv
  exact (applyKey_isSome (ld₁.heap ld₁.peer)).mp (by rw [happly]; rfl)

theorem Follows.event (h : Follows env garbage sp ld seg) {ev : Event}
    (hev : ld.event env ev = some ld') : Follows env garbage sp ld' (seg.event sp ev) := by
  cases ev with
  | key k =>
    cases hev
    exact h.setKey k
  | sectionStart =>
    cases hev
    exact h.startSection
  | value v => exact h.value hev

/-- Whatever the loader gets through, it follows the abstract loader. -/
theorem Follows.events {evs : List Event} (h : Follows env garbage sp ld seg)
    (hevs : ld.events env evs = some ld') : Follows env garbage sp ld' (seg.events sp evs) := by
  induction evs generalizing ld seg with
  | nil =>
    cases hevs
    exact h
  | cons ev evs ih =>
    obtain ⟨ld₁, h₁, hrest⟩ := Option.bind_eq_some_iff.mp
      (show (ld.event env ev).bind (fun ld => ld.events env evs) = some ld' from hevs)
    exact ih (h.event h₁) hrest

/-- No value among the events is refused. -/
def Seg.AcceptsAll (env : Env) (sp : Spare) : Seg → List Event → Prop
  | _, [] => True
  | seg, ev :: evs =>
    (∀ v, ev = .value v → seg.Accepts env sp v) ∧ (seg.event sp ev).AcceptsAll env sp evs

theorem Seg.acceptsAll_append {seg : Seg} {xs ys : List Event} :
    seg.AcceptsAll env sp (xs ++ ys) ↔
      seg.AcceptsAll env sp xs ∧ (seg.events sp xs).AcceptsAll env sp ys := by
  induction xs generalizing seg with
  | nil => simp [Seg.AcceptsAll, Seg.events]
  | cons ev xs ih =>
    simp only [List.cons_append, Seg.AcceptsAll, ih, and_assoc]
    rfl

theorem Follows.event_isSome (h : Follows env garbage sp ld seg) {ev : Event} :
    (∃ ld', ld.event env ev = some ld') ↔ ∀ v, ev = .value v → seg.Accepts env sp v := by
  cases ev with
  | key k => exact ⟨fun _ v hv => (nomatch hv), fun _ => ⟨_, rfl⟩⟩
  | sectionStart => exact ⟨fun _ v hv => (nomatch hv), fun _ => ⟨_, rfl⟩⟩
  | value v =>
    refine ⟨fun hsome w hw => ?_, fun hacc => h.value_isSome (hacc v rfl)⟩
    cases hw
    exact h.accepts hsome

/-- The loader gets through exactly the events whose values are accepted. -/
theorem Follows.events_isSome {evs : List Event} (h : Follows env garbage sp ld seg) :
    (∃ ld', ld.events env evs = some ld') ↔ seg.AcceptsAll env sp evs := by
  induction evs generalizing ld seg with
  | nil => exact ⟨fun _ => trivial, fun _ => ⟨ld, rfl⟩⟩
  | cons ev evs ih =>
    have hcons : ld.events env (ev :: evs) =
        (ld.event env ev).bind fun ld => ld.events env evs := rfl
    rw [hcons]
    constructor
    · rintro ⟨ld', hld'⟩
      obtain ⟨ld₁, h₁, hrest⟩ := Option.bind_eq_some_iff.mp hld'
      exact ⟨h.event_isSome.mp ⟨ld₁, h₁⟩, (ih (h.event h₁)).mp ⟨ld', hrest⟩⟩
    · rintro ⟨hacc, hrest⟩
      obtain ⟨ld₁, h₁⟩ := h.event_isSome.mpr hacc
      rw [h₁]
      exact (ih (h.event h₁)).mpr hrest

/-! ## The end of the loops

`add_to_peer_list` for the newest peer, which no further name has pushed into the list. -/

/-- The peers are linked in the order in which they were started. -/
theorem Follows.finish (h : Follows env garbage sp ld seg) (hne : seg.peers ≠ []) :
    Dlist.Circular ld.finish.mpl 0 (nodes seg.peers.length) ∧ ld.finish.heap = ld.heap := by
  obtain ⟨p, ps, hpeers⟩ := List.exists_cons_of_ne_nil hne
  have hpeer := h.peer hne
  have hmpl := h.mpl
  rw [hpeers] at hmpl hpeer
  rw [Loader.finish, if_pos (h.peerInit.mpr hne), hpeers]
  refine ⟨?_, rfl⟩
  show Dlist.Circular (ld.mpl.add ld.peer 0) 0 _
  rw [hpeer]
  exact hmpl.add (by simp [mem_nodes])

/-- Without a peer the list is never initialised. -/
theorem Follows.finish_nil (h : Follows env garbage sp ld seg) (hnil : seg.peers = []) :
    ld.finish.mpl.next 0 = none ∧ ld.finish.mpl.prev 0 = none := by
  have hinit : ¬ ld.peerInit = true := fun ht => h.peerInit.mp ht hnil
  have hmpl := h.mpl
  rw [hnil] at hmpl
  rw [Loader.finish, if_neg hinit]
  exact hmpl

end Follows

/-! ## The start

Nothing is assumed of the arrays and of what `malloc` will return. -/

/-- The program before `load_config`: static variables are zero, everything else is arbitrary. -/
structure Loader.Start (ld : Loader) : Prop where
  sequence : ld.sequence = 0
  peerInit : ld.peerInit = false
  peerid : ld.peerid = 1
  allocated : ld.allocated = 0
  mpl : ld.mpl.next 0 = none ∧ ld.mpl.prev 0 = none

def Loader.spare (ld : Loader) : Spare := ⟨ld.key 255, ld.name 255, ld.lastName 255⟩

/-- The strings that the arrays happen to hold. -/
def Loader.seg (ld : Loader) : Seg :=
  ⟨ld.key.str 0 256, ld.name.str 0 256, ld.lastName.str 0 256, 0, []⟩

theorem Loader.Start.follows {env : Env} {ld : Loader} (h : ld.Start) :
    Follows env ld.heap ld.spare ld ld.seg where
  spare := ⟨rfl, rfl, rfl⟩
  key := rfl
  name := rfl
  lastName := rfl
  sequence := h.sequence
  peerInit := by simp [h.peerInit, Loader.seg]
  peerid := by simp [h.peerid, Loader.seg]
  peer hne := absurd rfl hne
  allocated := h.allocated
  heap := trivial
  unused _ _ := rfl
  mpl := h.mpl

/-- A host without name service. -/
def offline : Env := ⟨fun _ => none⟩

/-- A start state in which the memory of the arrays and of `malloc` is full of the byte `b`. -/
def blankLoader (b : UInt8) : Loader where
  key := fun _ => b
  name := fun _ => b
  lastName := fun _ => b
  sequence := 0
  peerInit := false
  peerid := 1
  peer := 0
  allocated := 0
  heap := fun _ => ⟨b.toNat, b.toNat, b.toNat, b.toNat, 0, 0, fun _ => b⟩
  mpl := ⟨fun _ => none, fun _ => none⟩

theorem blankLoader_start (b : UInt8) : (blankLoader b).Start := ⟨rfl, rfl, rfl, rfl, rfl, rfl⟩

end Lanes
