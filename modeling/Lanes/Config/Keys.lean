import Lanes.Lib.Swaps
import Lanes.Config.Frame
import Lanes.Config.Taken

/-!
# The order of the keys of an entry

An entry that starts with a key `name…` keeps its peer under every order of its other keys in which
only pairs change places that may be exchanged:

* `exchangeable_iff` says when two pairs may: the copies that they make store the same bytes where
  they overlap, and a `type` next to a `map-interface` does not ask for another direction;
* `SafeKeys` asks this of every two pairs that stand in the other order afterwards, and that
  neither of them names a peer or starts one;
* `SafeKeys.events` is the result for one entry: a loader in the section of the symmetric peers ends
  in states that are alike (`Seg.Alike`), and gets through one order if it gets through the other.
  `SafeKeys.takes` puts the other entries around it.

The loader splits the pairs at names, so an exchange is harmless only where the entry has a peer
already (`Seg.Ongoing`). That is the invariant under which the exchanges are put together.
-/

namespace Lanes

/-! ## Pairs that may be exchanged

What `load_config` does for a pair depends on the branch of its key alone. Two branches commute
unless they write the same field, and the fields are apart except that a copy may run over the array
behind its own and that `map-interface` sets the direction as `type` does. -/

/-- A direction that `map-interface` sets is not changed by the `type` next to it. -/
def KeepsMap (a b : CStr × CStr) : Prop :=
  settingOf a.1 = some .type → settingOf b.1 = some .mapInterface →
    typeDirection a.2 dirMap = dirMap

/-- One of the pairs is ignored, or they are for different keys, agree about the direction and make
copies that agree. -/
def Exchangeable (a b : CStr × CStr) : Prop :=
  settingOf a.1 = none ∨ settingOf b.1 = none ∨
    settingOf a.1 ≠ settingOf b.1 ∧ KeepsMap a b ∧ KeepsMap b a ∧
      ∀ c ∈ copyOf a, ∀ d ∈ copyOf b, Agree c d

/-- Two pairs of an entry that may be exchanged and that both go to the peer of the entry. -/
structure Independent (a b : CStr × CStr) : Prop where
  left : PlainKey a.1
  right : PlainKey b.1
  exchangeable : Exchangeable a b

section Exchange

variable {env : Env} {a b : CStr × CStr}

theorem applyPairs_pair (peer : PeerCtx) :
    applyPairs env [a, b] peer = (applyKey env a.1 a.2 peer).bind (applyKey env b.1 b.2) := by
  rw [applyPairs_cons]
  congr 1
  funext mid
  rw [applyPairs_cons]
  cases applyKey env b.1 b.2 mid <;> rfl

/-- A refused pair is refused in either place. -/
theorem applyPairs_refused (h : ¬ Accepted env a.1 a.2) (peer : PeerCtx) :
    applyPairs env [a, b] peer = none ∧ applyPairs env [b, a] peer = none := by
  have hnone : ∀ p, applyKey env a.1 a.2 p = none := fun p => by
    rw [← Option.not_isSome_iff_eq_none, applyKey_isSome]
    exact h
  rw [applyPairs_pair, applyPairs_pair, hnone]
  refine ⟨rfl, ?_⟩
  cases applyKey env b.1 b.2 peer with
  | none => rfl
  | some mid => exact hnone mid

/-- A pair whose key is not known does nothing. -/
theorem applyPairs_ignored (h : settingOf a.1 = none) (peer : PeerCtx) :
    applyPairs env [a, b] peer = applyPairs env [b, a] peer := by
  have hid : ∀ p, applyKey env a.1 a.2 p = some p := fun p => by
    rw [applyKey_eq, h]
    rfl
  rw [applyPairs_pair, applyPairs_pair, hid, Option.bind_some]
  cases applyKey env b.1 b.2 peer with
  | none => rfl
  | some mid => exact (hid mid).symm

/-- Two settings commute on every structure exactly if they agree where they meet. -/
theorem setting_comm_iff (env : Env) {s t : Setting} {v w : CStr} (hne : s ≠ t) :
    (∀ peer, t.set env w (s.set env v peer) = s.set env v (t.set env w peer)) ↔
      (s = .type → t = .mapInterface → typeDirection v dirMap = dirMap) ∧
        (t = .type → s = .mapInterface → typeDirection w dirMap = dirMap) ∧
        ∀ c ∈ s.field.map fun fn => (⟨fn.1, v⟩ : Copy),
          ∀ d ∈ t.field.map fun fn => (⟨fn.1, w⟩ : Copy), Agree c d := by
  constructor
  · intro hall
    let peer : PeerCtx := ⟨0, 0, 0, 0, 0, 0, fun _ => 1⟩
    have hdir := congrArg PeerCtx.direction (hall peer)
    have htext := congrArg PeerCtx.text (hall peer)
    refine ⟨?_, ?_, (Setting.textAfter_comm_iff peer.text).mp htext.symm⟩
    · rintro rfl rfl
      exact hdir.symm
    · rintro rfl rfl
      exact hdir
  · rintro ⟨hleft, hright, hagree⟩ peer
    exact (Setting.set_comm_of_direction hne
      (Setting.direction_comm hne hleft fun hs ht => hright ht hs)
      ((Setting.textAfter_comm_iff peer.text).mpr hagree)).symm

/-- Pairs that are accepted and not for one and the same key may be exchanged on every structure
exactly if they are exchangeable. -/
theorem exchangeable_iff (ha : Accepted env a.1 a.2) (hb : Accepted env b.1 b.2)
    (hne : settingOf a.1 = none ∨ settingOf a.1 ≠ settingOf b.1) :
    (∀ peer, applyPairs env [a, b] peer = applyPairs env [b, a] peer) ↔ Exchangeable a b := by
  cases hs : settingOf a.1 with
  | none => exact iff_of_true (applyPairs_ignored hs) (Or.inl hs)
  | some s =>
    cases ht : settingOf b.1 with
    | none =>
      exact iff_of_true (fun peer => (applyPairs_ignored ht peer).symm) (Or.inr (Or.inl ht))
    | some t =>
      have hst : s ≠ t := by
        rintro rfl
        rw [hs, ht] at hne
        rcases hne with hno | hdiff
        · cases hno
        · exact hdiff rfl
      have hcomm := @setting_comm_iff env _ _ a.2 b.2 hst
      have hcopies : copyOf a = s.field.map (fun fn => (⟨fn.1, a.2⟩ : Copy)) ∧
          copyOf b = t.field.map (fun fn => (⟨fn.1, b.2⟩ : Copy)) := by
        constructor
        · rw [copyOf, hs, Option.bind_some]
        · rw [copyOf, ht, Option.bind_some]
      have hpairs : (∀ peer, applyPairs env [a, b] peer = applyPairs env [b, a] peer) ↔
          ∀ peer, t.set env b.2 (s.set env a.2 peer) = s.set env a.2 (t.set env b.2 peer) := by
        refine forall_congr' fun peer => ?_
        rw [applyPairs_two peer hs ht ha hb, applyPairs_two peer ht hs hb ha]
        exact Option.some_inj
      rw [hpairs, hcomm, ← hcopies.1, ← hcopies.2, Exchangeable, KeepsMap, KeepsMap, hs, ht]
      simp [hst]

theorem Exchangeable.swap (h : Exchangeable a b) (peer : PeerCtx) :
    applyPairs env [a, b] peer = applyPairs env [b, a] peer := by
  by_cases ha : Accepted env a.1 a.2
  · by_cases hb : Accepted env b.1 b.2
    · by_cases hno : settingOf b.1 = none
      · exact (applyPairs_ignored hno peer).symm
      · refine (exchangeable_iff ha hb ?_).mpr h peer
        rcases h with hs | ht | hdiff
        · exact Or.inl hs
        · exact absurd ht hno
        · exact Or.inr hdiff.1
    · obtain ⟨h₁, h₂⟩ := applyPairs_refused (b := a) hb peer
      rw [h₁, h₂]
  · obtain ⟨h₁, h₂⟩ := applyPairs_refused (b := b) ha peer
    rw [h₁, h₂]

end Exchange

/-! ## Loaders that are alike

Two states of the abstract loader are alike if no later event tells them apart and their peers come
to the same structures: only the order of the pairs of a peer may differ, and the key, which every
pair sets anew. -/

/-- Peers of one name whose pairs do the same to every structure. -/
structure PeerSpec.Alike (env : Env) (p q : PeerSpec) : Prop where
  name : p.name = q.name
  pairs : ∀ peer, applyPairs env p.pairs peer = applyPairs env q.pairs peer

structure Seg.Alike (env : Env) (seg seg' : Seg) : Prop where
  name : seg.name = seg'.name
  lastName : seg.lastName = seg'.lastName
  sequence : seg.sequence = seg'.sequence
  peers : List.Forall₂ (PeerSpec.Alike env) seg.peers seg'.peers

section Alike

variable {env : Env} (sp : Spare) {seg seg' : Seg}

theorem PeerSpec.Alike.refl (p : PeerSpec) : p.Alike env p := ⟨rfl, fun _ => rfl⟩

theorem PeerSpec.Alike.trans {p q r : PeerSpec} (h : p.Alike env q) (h' : q.Alike env r) :
    p.Alike env r :=
  ⟨h.name.trans h'.name, fun peer => (h.pairs peer).trans (h'.pairs peer)⟩

theorem PeerSpec.Alike.symm {p q : PeerSpec} (h : p.Alike env q) : q.Alike env p :=
  ⟨h.name.symm, fun peer => (h.pairs peer).symm⟩

theorem PeerSpec.alike_trans {ps qs rs : List PeerSpec}
    (h : List.Forall₂ (PeerSpec.Alike env) ps qs) (h' : List.Forall₂ (PeerSpec.Alike env) qs rs) :
    List.Forall₂ (PeerSpec.Alike env) ps rs := by
  induction h generalizing rs with
  | nil => exact h'
  | cons hpq _ ih =>
    obtain ⟨r, rs, hqr, hrest, rfl⟩ := List.forall₂_cons_left_iff.mp h'
    exact .cons (hpq.trans hqr) (ih hrest)

theorem Seg.Alike.refl (seg : Seg) : seg.Alike env seg :=
  ⟨rfl, rfl, rfl, List.forall₂_same.mpr fun p _ => .refl p⟩

theorem Seg.Alike.trans {seg'' : Seg} (h : seg.Alike env seg') (h' : seg'.Alike env seg'') :
    seg.Alike env seg'' where
  name := h.name.trans h'.name
  lastName := h.lastName.trans h'.lastName
  sequence := h.sequence.trans h'.sequence
  peers := PeerSpec.alike_trans h.peers h'.peers

theorem Seg.Alike.setKey (h : seg.Alike env seg') (k k' : CStr) :
    ({ seg with key := k } : Seg).Alike env { seg' with key := k' } :=
  ⟨h.name, h.lastName, h.sequence, h.peers⟩

theorem Seg.Alike.carry (h : seg.Alike env seg') (v : Option CStr) :
    (seg.carry sp v).Alike env (seg'.carry sp v) := by
  cases v with
  | none => exact h
  | some v => exact ⟨rfl, h.lastName, h.sequence, h.peers⟩

theorem Seg.Alike.remember (h : seg.Alike env seg') (hkey : seg.key = seg'.key) (v : CStr) :
    (seg.remember sp v).Alike env (seg'.remember sp v) := by
  unfold Seg.remember
  rw [hkey]
  split
  · exact ⟨rfl, h.lastName, h.sequence, h.peers⟩
  · exact h

theorem Seg.Alike.continues_iff (h : seg.Alike env seg') (hkey : seg.key = seg'.key) :
    seg.Continues ↔ seg'.Continues := by
  have hnil : seg.peers = [] ↔ seg'.peers = [] := by
    rw [← List.length_eq_zero_iff, h.peers.length_eq, List.length_eq_zero_iff]
  rw [Seg.Continues, Seg.Continues, ne_eq, hnil, hkey, h.lastName, h.name]

theorem Seg.Alike.extend (h : seg.Alike env seg') (hkey : seg.key = seg'.key) (v : CStr) :
    (seg.extend v).Alike env (seg'.extend v) := by
  have hpeers := h.peers
  unfold Seg.extend
  cases hp : seg.peers with
  | nil =>
    rw [hp] at hpeers
    rw [List.forall₂_nil_left_iff.mp hpeers]
    exact h
  | cons p ps =>
    rw [hp] at hpeers
    obtain ⟨q, qs, hpq, hrest, hq⟩ := List.forall₂_cons_left_iff.mp hpeers
    rw [hq]
    refine ⟨h.name, h.lastName, h.sequence, .cons ⟨hpq.name, fun peer => ?_⟩ hrest⟩
    rw [applyPairs_concat, applyPairs_concat, hpq.pairs, hkey]

theorem Seg.Alike.startPeer (h : seg.Alike env seg') :
    (seg.startPeer sp).Alike env (seg'.startPeer sp) where
  name := h.name
  lastName := by rw [Seg.startPeer, Seg.startPeer, h.name]
  sequence := h.sequence
  peers := .cons ⟨h.name, fun _ => rfl⟩ h.peers

theorem Seg.Alike.value (h : seg.Alike env seg') (hkey : seg.key = seg'.key) (v : CStr) :
    (seg.value sp v).Alike env (seg'.value sp v) := by
  have hrem := h.remember sp hkey v
  have hremKey : (seg.remember sp v).key = (seg'.remember sp v).key := by simpa using hkey
  unfold Seg.value
  simp only [hrem.sequence, hrem.continues_iff hremKey]
  split
  · split
    · exact hrem.extend hremKey v
    · exact hrem.startPeer sp
  · exact hrem

theorem Seg.Alike.pair (h : seg.Alike env seg') (p : CStr × CStr) :
    (seg.events sp (pairEvents p)).Alike env (seg'.events sp (pairEvents p)) :=
  (h.setKey _ _).value sp rfl p.2

theorem Seg.Alike.acceptsAll_pair (h : seg.Alike env seg') (p : CStr × CStr) :
    seg.AcceptsAll env sp (pairEvents p) ↔ seg'.AcceptsAll env sp (pairEvents p) := by
  obtain ⟨k, v⟩ := p
  have hrem := (h.setKey (clip sp.key k) (clip sp.key k)).remember sp rfl v
  have hcont := hrem.continues_iff (by simp)
  rw [Seg.acceptsAll_pair, Seg.acceptsAll_pair, Seg.Accepts, Seg.Accepts, hcont]
  simp only [h.sequence]

theorem Seg.Alike.pairs (h : seg.Alike env seg') (pairs : List (CStr × CStr)) :
    (seg.events sp (pairs.flatMap pairEvents)).Alike env
        (seg'.events sp (pairs.flatMap pairEvents)) ∧
      (seg.AcceptsAll env sp (pairs.flatMap pairEvents) ↔
        seg'.AcceptsAll env sp (pairs.flatMap pairEvents)) := by
  induction pairs generalizing seg seg' with
  | nil => exact ⟨h, Iff.rfl⟩
  | cons p pairs ih =>
    obtain ⟨hevents, hacc⟩ := ih (h.pair sp p)
    rw [List.flatMap_cons, Seg.events_append, Seg.events_append, Seg.acceptsAll_append,
      Seg.acceptsAll_append]
    exact ⟨hevents, and_congr (h.acceptsAll_pair sp p) hacc⟩

theorem Seg.Alike.takes (h : seg.Alike env seg') (ts : List Taken) :
    (ts.foldl (Seg.take sp) seg).Alike env (ts.foldl (Seg.take sp) seg') ∧
      (seg.AcceptsTaken env sp ts ↔ seg'.AcceptsTaken env sp ts) := by
  induction ts generalizing seg seg' with
  | nil => exact ⟨h, Iff.rfl⟩
  | cons t ts ih =>
    obtain ⟨hevents, hacc⟩ := (h.carry sp t.carried).pairs sp t.entry.pairs
    obtain ⟨hrest, haccs⟩ := ih hevents
    exact ⟨hrest, and_congr hacc haccs⟩

end Alike

/-! ## One entry

Behind a pair that was read in the section of the symmetric peers there is a newest peer, and the
name remembered starts with its name. Every pair keeps this, as long as the names fit into the
arrays, so that it holds wherever two pairs are exchanged. -/

/-- The newest peer has its name, and the name remembered is not cut. -/
structure Seg.Settled (seg : Seg) : Prop extends seg.Ongoing where
  short : seg.name.length < 255

/-- The name in the pair, if it gives one, fits into the array. -/
def ShortName (p : CStr × CStr) : Prop := strncmpEq "name" p.1 4 = true → p.2.length < 255

instance (p : CStr × CStr) : Decidable (ShortName p) := inferInstanceAs (Decidable (_ → _))

/-- The first pair stays and names the peer, the names fit, and of two pairs in the other order
neither is for the peer's name and the exchange is harmless. -/
structure SafeKeys (e e' : Entry) : Prop where
  first : e.pairs.head e.nonempty = e'.pairs.head e'.nonempty
  named : e.named = true
  short : ∀ p ∈ e.pairs, ShortName p
  swapped : ∀ a b, [a, b].Sublist e.pairs → [b, a].Sublist e'.pairs → Independent a b

section Entries

variable (env : Env) (sp : Spare) {seg seg' : Seg} {p a b : CStr × CStr}

/-- A pair whose name fits leaves a peer, its own or the one it found. -/
theorem Seg.settled_of_short (hseq : seg.sequence = seqSpeer)
    (hshort : (({ seg with key := clip sp.key p.1 } : Seg).remember sp p.2).name.length < 255) :
    (seg.events sp (pairEvents p)).Settled := by
  show (({ seg with key := clip sp.key p.1 } : Seg).value sp p.2).Settled
  unfold Seg.value
  have hseq' : (({ seg with key := clip sp.key p.1 } : Seg).remember sp p.2).sequence = seqSpeer :=
    (remember_sequence _ _).trans hseq
  generalize ({ seg with key := clip sp.key p.1 } : Seg).remember sp p.2 = mid at hshort hseq' ⊢
  show Seg.Settled (if mid.sequence = seqSpeer then
    if mid.Continues then mid.extend p.2 else mid.startPeer sp else mid)
  rw [if_pos hseq']
  by_cases hcont : mid.Continues
  · rw [if_pos hcont]
    obtain ⟨hne, -, hname⟩ := hcont
    obtain ⟨q, qs, hpeers⟩ := List.exists_cons_of_ne_nil hne
    have hextend : mid.extend p.2 =
        { mid with peers := { q with pairs := q.pairs ++ [(mid.key, p.2)] } :: qs } := by
      simp only [Seg.extend, hpeers]
    rw [hextend]
    exact ⟨⟨hseq', List.cons_ne_nil _ _, hname⟩, hshort⟩
  · rw [if_neg hcont]
    refine ⟨⟨hseq', List.cons_ne_nil _ _, ?_⟩, hshort⟩
    show strncmpEq (clip sp.lastName mid.name) mid.name (clip sp.lastName mid.name).length = true
    rw [clip_of_short hshort]
    exact strncmpEq_self _ _

theorem Seg.remember_name_short (hshort : ShortName p)
    (hname : strncmpEq "name" p.1 4 = false → seg.name.length < 255) :
    (({ seg with key := clip sp.key p.1 } : Seg).remember sp p.2).name.length < 255 := by
  unfold Seg.remember
  simp only [strncmpEq_clip "name" sp.key p.1 (n := 4) (by omega)]
  split
  · rename_i hnamed
    show (clip sp.name p.2).length < 255
    rw [clip_of_short (hshort hnamed)]
    exact hshort hnamed
  · rename_i hnamed
    exact hname (Bool.eq_false_iff.mpr hnamed)

theorem Seg.Settled.pair (h : seg.Settled) (hp : ShortName p) :
    (seg.events sp (pairEvents p)).Settled :=
  seg.settled_of_short sp h.sequence (seg.remember_name_short sp hp fun _ => h.short)

theorem SafeKeys.named' {e e' : Entry} (h : SafeKeys e e') : e'.named = true := by
  rw [Entry.named, ← h.first]
  exact h.named

theorem PlainKey.shortName (h : PlainKey p.1) : ShortName p := fun hnamed => by
  rw [h.1] at hnamed
  cases hnamed

/-- Two plain pairs, one behind the other. -/
theorem Seg.Settled.two (h : seg.Settled) {q : PeerSpec} {qs : List PeerSpec}
    (hpeers : seg.peers = q :: qs) (ha : PlainKey a.1) (hb : PlainKey b.1) :
    (seg.events sp (pairEvents a)).events sp (pairEvents b) =
        { seg with key := b.1, peers := { q with pairs := q.pairs ++ [a] ++ [b] } :: qs } ∧
      (seg.AcceptsAll env sp (pairEvents a) ∧
          (seg.events sp (pairEvents a)).AcceptsAll env sp (pairEvents b) ↔
        Accepted env a.1 a.2 ∧ Accepted env b.1 b.2) := by
  obtain ⟨hea, hacca⟩ := Seg.events_plain env sp h.toOngoing a.2 ha
  obtain ⟨heb, haccb⟩ := Seg.events_plain env sp (h.pair sp ha.shortName).toOngoing b.2 hb
  refine ⟨?_, and_congr hacca haccb⟩
  rw [heb, hea]
  simp only [Seg.extend, hpeers]

theorem applyPairs_concat_two (pairs : List (CStr × CStr)) (peer : PeerCtx) :
    applyPairs env (pairs ++ [a] ++ [b]) peer =
      (applyPairs env pairs peer).bind (applyPairs env [a, b]) := by
  rw [applyPairs_concat, applyPairs_concat, Option.bind_assoc]
  exact Option.bind_congr fun mid _ => (applyPairs_pair mid).symm

/-- Two independent pairs go to the newest peer in either order. -/
theorem Seg.Settled.swap (h : seg.Settled) (hab : Independent a b) :
    ((seg.events sp (pairEvents a)).events sp (pairEvents b)).Alike env
        ((seg.events sp (pairEvents b)).events sp (pairEvents a)) ∧
      (seg.AcceptsAll env sp (pairEvents a) ∧
          (seg.events sp (pairEvents a)).AcceptsAll env sp (pairEvents b) ↔
        seg.AcceptsAll env sp (pairEvents b) ∧
          (seg.events sp (pairEvents b)).AcceptsAll env sp (pairEvents a)) := by
  obtain ⟨q, qs, hpeers⟩ := List.exists_cons_of_ne_nil h.started
  obtain ⟨hevents, hacc⟩ := h.two env sp hpeers hab.left hab.right
  obtain ⟨hevents', hacc'⟩ := h.two env sp hpeers hab.right hab.left
  refine ⟨?_, hacc.trans (and_comm.trans hacc'.symm)⟩
  rw [hevents, hevents']
  refine ⟨rfl, rfl, rfl, .cons ⟨rfl, fun peer => ?_⟩ (List.forall₂_same.mpr fun r _ => .refl r)⟩
  rw [applyPairs_concat_two, applyPairs_concat_two]
  exact Option.bind_congr fun mid _ => hab.exchangeable.swap mid

/-- A pair, read by a loader of which it is known whether it got through the pairs before. -/
def Seg.read (env : Env) (sp : Spare) (s : Seg × Prop) (p : CStr × CStr) : Seg × Prop :=
  (s.1.events sp (pairEvents p), s.2 ∧ s.1.AcceptsAll env sp (pairEvents p))

theorem Seg.foldl_read (seg : Seg) (pairs : List (CStr × CStr)) (ok : Prop) :
    (pairs.foldl (Seg.read env sp) (seg, ok)).1 = seg.events sp (pairs.flatMap pairEvents) ∧
      ((pairs.foldl (Seg.read env sp) (seg, ok)).2 ↔
        ok ∧ seg.AcceptsAll env sp (pairs.flatMap pairEvents)) := by
  induction pairs generalizing seg ok with
  | nil => exact ⟨rfl, (and_iff_left trivial).symm⟩
  | cons p pairs ih =>
    obtain ⟨hevents, hacc⟩ := ih (seg.events sp (pairEvents p))
      (ok ∧ seg.AcceptsAll env sp (pairEvents p))
    rw [List.flatMap_cons, Seg.events_append, Seg.acceptsAll_append, ← and_assoc]
    exact ⟨hevents, hacc⟩

/-- The pairs behind the first one. -/
theorem Seg.Settled.rearranged (h : seg.Settled) {rest rest' : List (CStr × CStr)}
    (hre : Swaps.Reorders Independent rest rest') (hshort : ∀ p ∈ rest, ShortName p) :
    (seg.events sp (rest.flatMap pairEvents)).Alike env
        (seg.events sp (rest'.flatMap pairEvents)) ∧
      (seg.AcceptsAll env sp (rest.flatMap pairEvents) ↔
        seg.AcceptsAll env sp (rest'.flatMap pairEvents)) := by
  have hfold := hre.foldl (Seg.read env sp) (fun s t => s.1.Alike env t.1 ∧ (s.2 ↔ t.2))
    (fun s => s.1.Settled) ShortName (fun s => ⟨.refl s.1, Iff.rfl⟩)
    (fun hst htu => ⟨hst.1.trans htu.1, hst.2.trans htu.2⟩)
    (fun p hst => ⟨hst.1.pair sp p, and_congr hst.2 (hst.1.acceptsAll_pair sp p)⟩)
    (fun hp hs => hs.pair sp hp)
    (fun {s _ _} hs hab => ⟨(hs.swap env sp hab).1, by
      simp only [Seg.read, and_assoc]
      exact and_congr Iff.rfl (hs.swap env sp hab).2⟩) hshort (s := (seg, True)) h
  obtain ⟨hev, hacc⟩ := Seg.foldl_read env sp seg rest True
  obtain ⟨hev', hacc'⟩ := Seg.foldl_read env sp seg rest' True
  rw [hev, hev', hacc, hacc', true_and, true_and] at hfold
  exact hfold

/-- **The order of the keys.** In the section of the symmetric peers, an entry whose keys were
rearranged safely does the same. -/
theorem SafeKeys.events {e e' : Entry} (h : SafeKeys e e') (hperm : e.pairs.Perm e'.pairs)
    (hseq : seg.sequence = seqSpeer) :
    (seg.events sp e.events).Alike env (seg.events sp e'.events) ∧
      (seg.AcceptsAll env sp e.events ↔ seg.AcceptsAll env sp e'.events) := by
  obtain ⟨pairs, hne⟩ := e
  obtain ⟨pairs', hne'⟩ := e'
  obtain ⟨p, rest, rfl⟩ := List.exists_cons_of_ne_nil hne
  obtain ⟨p', rest', rfl⟩ := List.exists_cons_of_ne_nil hne'
  obtain rfl : p = p' := h.first
  have hre : Swaps.Reorders Independent rest rest' :=
    Swaps.reorders_of_inverted hperm.cons_inv fun a b hab hba =>
      h.swapped a b (hab.trans (List.sublist_cons_self p rest))
        (hba.trans (List.sublist_cons_self p rest'))
  have hnamed : strncmpEq "name" p.1 4 = true := h.named
  -- the first pair gives the entry its peer, whatever the loader had before
  have hsettled := seg.settled_of_short sp hseq
    (seg.remember_name_short sp (h.short p (List.mem_cons_self ..)) fun hno => by
      rw [hno] at hnamed
      cases hnamed)
  obtain ⟨hevents, hacc⟩ := hsettled.rearranged env sp hre
    fun q hq => h.short q (List.mem_cons_of_mem _ hq)
  rw [Entry.events, Entry.events, List.flatMap_cons, List.flatMap_cons, Seg.events_append,
    Seg.events_append, Seg.acceptsAll_append, Seg.acceptsAll_append]
  exact ⟨hevents, and_congr Iff.rfl hacc⟩

theorem Seg.takes_sequence (ts : List Taken) :
    (ts.foldl (Seg.take sp) seg).sequence = seg.sequence := by
  induction ts generalizing seg with
  | nil => rfl
  | cons t ts ih =>
    rw [List.foldl_cons, ih, Seg.take, Seg.events_sequence sp t.entry.events_no_section,
      Seg.carry_sequence]

/-- The entries around it do not see which order it was. -/
theorem SafeKeys.takes {e e' : Entry} (h : SafeKeys e e') (hperm : e.pairs.Perm e'.pairs)
    (hseq : seg.sequence = seqSpeer) (ts us : List Taken) :
    ((ts ++ ⟨none, e⟩ :: us).foldl (Seg.take sp) seg).Alike env
        ((ts ++ ⟨none, e'⟩ :: us).foldl (Seg.take sp) seg) ∧
      (seg.AcceptsTaken env sp (ts ++ ⟨none, e⟩ :: us) ↔
        seg.AcceptsTaken env sp (ts ++ ⟨none, e'⟩ :: us)) := by
  obtain ⟨hevents, hacc⟩ := h.events env sp hperm
    ((Seg.takes_sequence sp ts).trans hseq)
  obtain ⟨hrest, haccs⟩ := hevents.takes sp us
  rw [List.foldl_append, List.foldl_append, Seg.acceptsTaken_append, Seg.acceptsTaken_append]
  exact ⟨hrest, and_congr Iff.rfl (and_congr hacc haccs)⟩

end Entries

end Lanes
