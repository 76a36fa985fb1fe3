import Mathlib.Data.Fintype.EquivFin
import Lanes.Config.Failure
import Lanes.Config.Keys

/-!
# The order of sections and keys

The sections of a configuration, and the keys of an entry, stand in a mapping, so their order says
nothing. `load_config` gives it a meaning: it reads the first section with another loop than the
later ones, keeps the section it is in beyond the end of that section, compares section names by
their first bytes only and starts a peer where it meets a name.

* `Rearranged` lists the changes that keep the meaning of a file and `OrderIndependent` says that
  none of them changes the peers. `orderIndependent_fails` is a file of two sections for which it
  is false, and `orderIndependent_never` shows that no configuration is safe from every change: one
  more section at the end can always add a peer.
* `SafelyRearranged` gives each kind of change the condition under which the loader does not see it,
  and `loads_of_safelyRearranged` is the result: the same files are accepted and the same structures
  are left, in the same order.

The way there is through the abstract loader. `Document.peers_eq_counted` reduces a configuration
to its entries that count, `SafeKeys.takes` deals with one of them under another order of its keys,
and `Configuration.loads_of_alike` returns from the abstract peers to the list in memory.
-/

namespace Lanes

/-! ## Configurations

The files are those of `Document` in which no mapping repeats a key, and two files are compared by
the list that is left behind `MPL`. -/

/-- A well-formed configuration: no mapping repeats a key. -/
structure Configuration extends Document where
  distinct : (sections.map Section.name).Nodup
  distinctKeys : ∀ s ∈ sections, ∀ e ∈ s.entries.val, e.keys.Nodup

/-- One change to the sections that keeps the meaning of the file. -/
inductive Rearranged : List Section → List Section → Prop
  /-- The sections in another order. -/
  | sections {xs ys : List Section} : xs.Perm ys → Rearranged xs ys
  /-- The keys of an entry of the symmetric peers in another order. -/
  | keys {xs ys : List Section} {indented : Bool} {es es' : List Entry} {e e' : Entry} :
      e.pairs.Perm e'.pairs →
      Rearranged (xs ++ ⟨"symmetric-peers", indented, es ++ e :: es', by simp⟩ :: ys)
        (xs ++ ⟨"symmetric-peers", indented, es ++ e' :: es', by simp⟩ :: ys)
  /-- Another section more. -/
  | add {xs ys : List Section} {s : Section} : s.name ≠ "symmetric-peers" →
      Rearranged (xs ++ ys) (xs ++ s :: ys)
  /-- Another section less. -/
  | remove {xs ys : List Section} {s : Section} : s.name ≠ "symmetric-peers" →
      Rearranged (xs ++ s :: ys) (xs ++ ys)

/-- The peers on `MPL` from the first to the last; a list that was never initialised has none. -/
def Loader.Peers (ld : Loader) (peers : List PeerCtx) : Prop :=
  (ld.mpl.prev 0 = none ∧ peers = []) ∨
    ∃ n ids, ld.mpl.forEachPrev 0 n = some ids ∧ peers = ids.map ld.heap

/-- `load_config` accepts the configuration and leaves these peers. -/
def Configuration.Loads (env : Env) (ld₀ : Loader) (c : Configuration) (peers : List PeerCtx) :
    Prop :=
  ∃ ld, LoadConfig env c.file ld₀ (.returned ld) ∧ ld.Peers peers

/-- Every rearrangement leaves the same peers. -/
def OrderIndependent (env : Env) (ld₀ : Loader) (c : Configuration) : Prop :=
  ∀ c' : Configuration, c'.heading = c.heading → c'.trailer = c.trailer →
    Rearranged c.sections c'.sections →
    ∀ peers, c.Loads env ld₀ peers → c'.Loads env ld₀ peers

/-! ## The peers that are left

The list that `load_config` leaves is determined by the abstract loader and by what `malloc` found,
so two configurations whose abstract peers are alike leave the same list from the same start. -/

section Loads

variable {env : Env} {ld₀ ld ld' : Loader} {c c' : Configuration} {peers : List PeerCtx}
  {garbage : Nat → PeerCtx} {sp : Spare} {seg seg' : Seg}

/-- The peers are the structures handed out, in their order. -/
theorem Follows.peers_iff (h : Follows env garbage sp ld seg) :
    ld.finish.Peers peers ↔ peers = (nodes seg.peers.length).reverse.map ld.heap := by
  by_cases hne : seg.peers = []
  · obtain ⟨-, hprev⟩ := h.finish_nil hne
    rw [hne]
    constructor
    · rintro (⟨-, rfl⟩ | ⟨n, ids, hids, -⟩)
      · rfl
      · rw [Dlist.Links.forEachPrev, hprev, Dlist.follow_none] at hids
        cases hids
    · exact fun hnil => Or.inl ⟨hprev, hnil⟩
  · obtain ⟨hcirc, hheap⟩ := h.finish hne
    have hwalk := hcirc.forEachPrev (Nat.lt_succ_self _)
    rw [← hheap]
    constructor
    · rintro (⟨hprev, -⟩ | ⟨n, ids, hids, rfl⟩)
      · rw [Dlist.Links.forEachPrev, hprev, Dlist.follow_none] at hwalk
        cases hwalk
      · rw [Dlist.follow_unique hids hwalk]
    · exact fun hpeers => Or.inr ⟨_, _, hwalk, hpeers⟩

/-- Peers that are alike come to the same structures. -/
theorem InHeap.alike {heap heap' : Nat → PeerCtx} {ps ps' : List PeerSpec}
    (h : InHeap env garbage heap ps) (h' : InHeap env garbage heap' ps')
    (halike : List.Forall₂ (PeerSpec.Alike env) ps ps') :
    ∀ i ∈ nodes ps.length, heap i = heap' i := by
  induction halike with
  | nil => exact fun i hi => absurd hi List.not_mem_nil
  | @cons p q ps ps' hpq hrest ih =>
    intro i hi
    rcases List.mem_cons.mp hi with rfl | hi
    · have hp := h.1
      have hq := h'.1
      rw [← hrest.length_eq, ← hpq.name, ← hpq.pairs, hp] at hq
      exact Option.some.inj hq
    · exact ih h.2 h'.2 i hi

theorem Follows.peers_alike (h : Follows env garbage sp ld seg)
    (h' : Follows env garbage sp ld' seg')
    (halike : List.Forall₂ (PeerSpec.Alike env) seg.peers seg'.peers) :
    ld.finish.Peers peers ↔ ld'.finish.Peers peers := by
  have hsame : (nodes seg.peers.length).reverse.map ld.heap =
      (nodes seg'.peers.length).reverse.map ld'.heap := by
    rw [← halike.length_eq]
    exact List.map_congr_left fun i hi =>
      h.heap.alike h'.heap halike i (List.mem_reverse.mp hi)
  rw [h.peers_iff, h'.peers_iff, hsame]

/-- The configurations that `load_config` accepts are those whose events the abstract loader
accepts. -/
theorem Document.returned_iff (d : Document) :
    LoadConfig env d.file ld₀ (.returned ld) ↔
      ∃ ld', ld₀.events env d.events = some ld' ∧ ld = ld'.finish := by
  obtain ⟨n, hn⟩ := Reading.run env [] ld₀ d.reading (Or.inl rfl)
  rw [List.append_nil] at hn
  constructor
  · intro hload
    have huniq := hload.unique ⟨rfl, n, hn⟩
    split at huniq
    · rename_i ld' hld'
      exact ⟨ld', hld', Outcome.returned.inj huniq⟩
    · cases huniq
  · rintro ⟨ld', hld', rfl⟩
    rw [hld'] at hn
    exact ⟨rfl, n, hn⟩

theorem Configuration.Loads.length (h₀ : ld₀.Start) (h : c.Loads env ld₀ peers) :
    peers.length = (ld₀.seg.events ld₀.spare c.events).peers.length := by
  obtain ⟨ld, hload, hpeers⟩ := h
  obtain ⟨ld', hld', rfl⟩ := c.toDocument.returned_iff.mp hload
  rw [(h₀.follows.events hld').peers_iff.mp hpeers, List.length_map, List.length_reverse,
    nodes_length]

theorem Configuration.exists_loads (h₀ : ld₀.Start) :
    (∃ peers, c.Loads env ld₀ peers) ↔ ld₀.seg.AcceptsAll env ld₀.spare c.events := by
  rw [← h₀.follows.events_isSome]
  constructor
  · rintro ⟨peers, ld, hload, -⟩
    obtain ⟨ld', hld', -⟩ := c.toDocument.returned_iff.mp hload
    exact ⟨ld', hld'⟩
  · rintro ⟨ld', hld'⟩
    exact ⟨_, ld'.finish, c.toDocument.returned_iff.mpr ⟨ld', hld', rfl⟩,
      (h₀.follows.events hld').peers_iff.mpr rfl⟩

/-- One configuration is accepted if the other one is, and the peers are alike. -/
theorem Configuration.loads_of_alike (h₀ : ld₀.Start)
    (hacc : ld₀.seg.AcceptsAll env ld₀.spare c.events → ld₀.seg.AcceptsAll env ld₀.spare c'.events)
    (halike : List.Forall₂ (PeerSpec.Alike env) (ld₀.seg.events ld₀.spare c.events).peers
      (ld₀.seg.events ld₀.spare c'.events).peers) (h : c.Loads env ld₀ peers) :
    c'.Loads env ld₀ peers := by
  obtain ⟨ld₂, hld₂⟩ := h₀.follows.events_isSome.mpr
    (hacc ((Configuration.exists_loads h₀).mp ⟨peers, h⟩))
  obtain ⟨ld, hload, hpeers⟩ := h
  obtain ⟨ld₁, hld₁, rfl⟩ := c.toDocument.returned_iff.mp hload
  refine ⟨ld₂.finish, c'.toDocument.returned_iff.mpr ⟨ld₂, hld₂, rfl⟩, ?_⟩
  exact ((h₀.follows.events hld₁).peers_alike (h₀.follows.events hld₂) halike).mp hpeers

end Loads

/-! ## Rearrangements that are safe

What a rearrangement may not do is change which entries count, or, inside an entry, what the loader
splits at and what two pairs write both. The kinds have a condition each; for sections it speaks of
the sections alone (`counted`), for keys of the two orders of the pairs (`SafeKeys`). -/

/-- A rearrangement that the loader does not see. -/
inductive SafelyRearranged : List Section → List Section → Prop
  /-- The same entries count, in the same order. -/
  | sections {xs ys : List Section} : xs.Perm ys → counted xs = counted ys → SafelyRearranged xs ys
  /-- The section does not count, or the keys are rearranged safely. -/
  | keys {xs ys : List Section} {indented : Bool} {es es' : List Entry} {e e' : Entry} :
      e.pairs.Perm e'.pairs → (xs = [] ∨ indented = false ∨ SafeKeys e e') →
      SafelyRearranged (xs ++ ⟨"symmetric-peers", indented, es ++ e :: es', by simp⟩ :: ys)
        (xs ++ ⟨"symmetric-peers", indented, es ++ e' :: es', by simp⟩ :: ys)
  /-- The new section counts for nothing and changes nothing for those behind it. -/
  | add {xs ys : List Section} {s : Section} : s.name ≠ "symmetric-peers" →
      counted (xs ++ ys) = counted (xs ++ s :: ys) → SafelyRearranged (xs ++ ys) (xs ++ s :: ys)
  /-- The section counted for nothing and changed nothing for those behind it. -/
  | remove {xs ys : List Section} {s : Section} : s.name ≠ "symmetric-peers" →
      counted (xs ++ s :: ys) = counted (xs ++ ys) → SafelyRearranged (xs ++ s :: ys) (xs ++ ys)

section Safely

variable {env : Env} {ld₀ : Loader} {c c' : Configuration} {xs ys : List Section}

theorem SafelyRearranged.rearranged (h : SafelyRearranged xs ys) : Rearranged xs ys := by
  cases h with
  | sections hperm _ => exact .sections hperm
  | keys hperm _ => exact .keys hperm
  | add hother _ => exact .add hother
  | remove hother _ => exact .remove hother

/-- The two lists of entries that count are read alike. -/
theorem SafelyRearranged.counted_alike (h : SafelyRearranged xs ys) (env : Env) (sp : Spare)
    {seg : Seg} (hseq : seg.sequence = seqSpeer) :
    ((counted xs).foldl (Seg.take sp) seg).Alike env ((counted ys).foldl (Seg.take sp) seg) ∧
      (seg.AcceptsTaken env sp (counted xs) ↔ seg.AcceptsTaken env sp (counted ys)) := by
  have hsame : ∀ {us vs : List Taken}, us = vs →
      (us.foldl (Seg.take sp) seg).Alike env (vs.foldl (Seg.take sp) seg) ∧
        (seg.AcceptsTaken env sp us ↔ seg.AcceptsTaken env sp vs) := by
    rintro us vs rfl
    exact ⟨.refl _, Iff.rfl⟩
  cases h with
  | sections _ hcounted => exact hsame hcounted
  | add _ hcounted => exact hsame hcounted
  | remove _ hcounted => exact hsame hcounted
  | @keys xs ys indented es es' e e' hperm hsafe =>
    cases xs with
    | nil => exact hsame rfl
    | cons x xs =>
      cases hindented : indented with
      | false =>
        subst hindented
        have hflat : ∀ (es : Entries), counted (x :: xs ++ ⟨"symmetric-peers", false, es⟩ :: ys) =
            taken false none (xs ++ ys) := fun es => taken_flat rfl xs ys
        exact hsame ((hflat ⟨es ++ e :: es', by simp⟩).trans
          (hflat ⟨es ++ e' :: es', by simp⟩).symm)
      | true =>
        subst hindented
        have hkeys : SafeKeys e e' := by
          rcases hsafe with hfirst | hflat | hkeys
          · cases hfirst
          · cases hflat
          · exact hkeys
        obtain ⟨ts, us, hsplit⟩ := taken_split false none xs ys es es'
        have hleft :
            counted (x :: xs ++ ⟨"symmetric-peers", true, es ++ e :: es', by simp⟩ :: ys) =
              ts ++ ⟨none, e⟩ :: us := hsplit e hkeys.named
        have hright :
            counted (x :: xs ++ ⟨"symmetric-peers", true, es ++ e' :: es', by simp⟩ :: ys) =
              ts ++ ⟨none, e'⟩ :: us := hsplit e' hkeys.named'
        rw [hleft, hright]
        exact hkeys.takes env sp hperm hseq ts us

/-- **Order.** A rearrangement that is safe leaves the same peers: the same number, in the same
order, with the same structures. -/
theorem loads_of_safelyRearranged (h₀ : ld₀.Start)
    (h : SafelyRearranged c.sections c'.sections) (peers : List PeerCtx) :
    c.Loads env ld₀ peers ↔ c'.Loads env ld₀ peers := by
  have hstart : ld₀.seg.sequence ≠ seqSpeer := show 0 ≠ seqSpeer by decide
  obtain ⟨halike, hacc⟩ := h.counted_alike env ld₀.spare
    (show ({ ld₀.seg with sequence := seqSpeer } : Seg).sequence = seqSpeer from rfl)
  obtain ⟨hpeers, haccs⟩ := c.toDocument.peers_eq_counted env ld₀.spare ld₀.seg hstart
  obtain ⟨hpeers', haccs'⟩ := c'.toDocument.peers_eq_counted env ld₀.spare ld₀.seg hstart
  have hsame := halike.peers
  rw [← hpeers, ← hpeers'] at hsame
  have hboth := haccs.trans (hacc.trans haccs'.symm)
  have hflip : List.Forall₂ (PeerSpec.Alike env) (ld₀.seg.events ld₀.spare c'.events).peers
      (ld₀.seg.events ld₀.spare c.events).peers := hsame.flip.imp fun _ _ hpq => hpq.symm
  exact ⟨Configuration.loads_of_alike h₀ hboth.mp hsame,
    Configuration.loads_of_alike h₀ hboth.mpr hflip⟩

end Safely

/-- The entries of the asymmetric peers in `twoPeers`. -/
def fargo : Entries :=
  ⟨[⟨[("name", "fargo"), ("algorithm", "rsa")], List.cons_ne_nil _ _⟩], List.cons_ne_nil _ _⟩

/-- `twoPeers` with the section of the asymmetric peers moved to the end. -/
def movedBehind : SampleFile := { twoPeers with before := none, behind := some fargo }

/-- `twoPeers` without that section. -/
def leftOut : SampleFile := { twoPeers with before := none }

theorem texasOut_length : CStr.length "texas-out" < 255 := by decide

theorem swappedPairs_documented :
    ∀ p ∈ [(("threads", "1") : CStr × CStr), ("type", "ingress")], p.1 ∈ documentedKeys := by decide

theorem noPairs_documented : ∀ p ∈ ([] : List (CStr × CStr)), p.1 ∈ documentedKeys :=
  fun _ h => absurd h List.not_mem_nil

/-- `texas` with its keys in another order. -/
def texasSwapped : PeerEntry where
  name := "texas"
  pairs := [("threads", "1"), ("type", "ingress")]
  short := texas_short
  documented := swappedPairs_documented

def texasLast : PeerEntry where
  name := "texas-out"
  pairs := []
  short := texasOut_length
  documented := noPairs_documented

/-- `twoPeers` with the keys of the first peer in another order. -/
def keysSwapped : SampleFile :=
  { twoPeers with
    peers := [texasSwapped, texasLast]
    nonempty := List.cons_ne_nil _ _ }

def twoPeersConfiguration : Configuration := ⟨twoPeers.document, by decide, by decide⟩

def movedBehindConfiguration : Configuration := ⟨movedBehind.document, by decide, by decide⟩

def leftOutConfiguration : Configuration := ⟨leftOut.document, by decide, by decide⟩

def keysSwappedConfiguration : Configuration := ⟨keysSwapped.document, by decide, by decide⟩

theorem safelyRearranged_movedBehind :
    SafelyRearranged twoPeersConfiguration.sections movedBehindConfiguration.sections :=
  .sections (.cons _ (.swap _ _ _)) rfl

theorem safelyRearranged_leftOut :
    SafelyRearranged twoPeersConfiguration.sections leftOutConfiguration.sections :=
  @SafelyRearranged.remove [⟨"global", true, twoPeers.global⟩] _ (asymmetric fargo) (by decide) rfl

/-- `type` and `threads` set a number each. -/
theorem independent_type_threads : Independent ("type", "ingress") ("threads", "1") where
  left := by decide
  right := by decide
  exchangeable := by
    refine Or.inr (Or.inr ⟨by decide, fun _ hmap => ?_, fun htype _ => ?_, fun c hc => ?_⟩)
    · cases hmap
    · cases htype
    · cases hc

/-- The entry of `texas` in the two orders. -/
def threeKeys : Entry := ⟨[("name", "texas"), ("type", "ingress"), ("threads", "1")], by simp⟩

def threeKeysSwapped : Entry :=
  ⟨[("name", "texas"), ("threads", "1"), ("type", "ingress")], by simp⟩

theorem safeKeys_threeKeys : SafeKeys threeKeys threeKeysSwapped where
  first := rfl
  named := by decide
  short := by decide
  swapped a b hab hba := by
    have hall : ∀ a ∈ threeKeys.pairs, ∀ b ∈ threeKeys.pairs, [a, b].Sublist threeKeys.pairs →
        [b, a].Sublist threeKeysSwapped.pairs →
          (a, b) = ((("type", "ingress"), ("threads", "1")) : (CStr × CStr) × CStr × CStr) := by
      decide
    cases hall a (hab.subset (by simp)) b (hab.subset (by simp)) hab hba
    exact independent_type_threads

theorem safelyRearranged_keysSwapped :
    SafelyRearranged twoPeersConfiguration.sections keysSwappedConfiguration.sections :=
  @SafelyRearranged.keys [⟨"global", true, twoPeers.global⟩, asymmetric fargo] [] true []
    [⟨[("name", "texas-out")], by simp⟩] threeKeys threeKeysSwapped (.cons _ (.swap _ _ _))
    (Or.inr (Or.inr safeKeys_threeKeys))

theorem loads_of_safelyRearranged_twoPeers :
    ∃ peers, peers.length = 2 ∧
      twoPeersConfiguration.Loads offline (blankLoader 65) peers ∧
      movedBehindConfiguration.Loads offline (blankLoader 65) peers ∧
      leftOutConfiguration.Loads offline (blankLoader 65) peers ∧
      keysSwappedConfiguration.Loads offline (blankLoader 65) peers := by
  have h₀ := blankLoader_start 65
  have haccept : ∀ e ∈ twoPeers.peers, e.Accepted offline := by decide
  obtain ⟨hpeers, hacc⟩ := twoPeers.events (blankLoader 65).spare (blankLoader 65).seg rfl haccept
  obtain ⟨peers, hload⟩ := (Configuration.exists_loads (c := twoPeersConfiguration) h₀).mpr hacc
  refine ⟨peers, ?_, hload, ?_, ?_, ?_⟩
  · have hlen := hload.length h₀
    rw [hlen]
    exact congrArg List.length hpeers
  · exact (loads_of_safelyRearranged h₀ safelyRearranged_movedBehind peers).mp hload
  · exact (loads_of_safelyRearranged h₀ safelyRearranged_leftOut peers).mp hload
  · exact (loads_of_safelyRearranged h₀ safelyRearranged_keysSwapped peers).mp hload

/-! ## The first section

What the loop over the first mapping reads it does not keep, so the section of the symmetric peers
counts only behind another one. -/

theorem events_others (env : Env) (sp : Spare) {seg : Seg} {ss : List Section}
    (hseq : seg.sequence ≠ seqSpeer)
    (hss : ∀ s ∈ ss, strncmpEq "symmetric-peers" (clip sp.key s.name) 15 = false) :
    (seg.events sp (ss.flatMap Section.events)).peers = seg.peers ∧
      seg.AcceptsAll env sp (ss.flatMap Section.events) := by
  induction ss generalizing seg with
  | nil => exact ⟨rfl, trivial⟩
  | cons s ss ih =>
    have hs : ({ seg with key := clip sp.key s.name } : Seg).startSection.sequence ≠ seqSpeer := by
      unfold Seg.startSection
      rw [if_neg (by simp [hss s])]
      split
      · exact show seqApeer ≠ seqSpeer by decide
      · exact hseq
    obtain ⟨hpeers, hsequence, hacc⟩ := Section.events_idle env sp hs
    obtain ⟨hrest, haccs⟩ := ih (hsequence hseq) fun t ht => hss t (by simp [ht])
    rw [List.flatMap_cons, Seg.events_append, Seg.acceptsAll_append]
    exact ⟨hrest.trans hpeers, hacc, haccs⟩

/-- The section of the symmetric peers counts only behind another section: a file in which it comes
first, or not at all, has no peers. -/
theorem Document.no_peers (env : Env) (ld₀ : Loader) (d : Document)
    (hd : ∀ s ∈ d.sections.tail,
      strncmpEq "symmetric-peers" (clip ld₀.spare.key s.name) 15 = false) :
    (ld₀.seg.events ld₀.spare d.events).peers = [] ∧
      ld₀.seg.AcceptsAll env ld₀.spare d.events := by
  obtain ⟨s, ss, hss⟩ := List.exists_cons_of_ne_nil d.nonempty
  rw [hss] at hd
  obtain ⟨⟨k, hk⟩, hacc⟩ := Seg.events_keys env ld₀.spare ld₀.seg s.keys
  have hseq : ({ ld₀.seg with key := k } : Seg).sequence ≠ seqSpeer := show 0 ≠ seqSpeer by decide
  obtain ⟨hpeers, haccs⟩ := events_others env ld₀.spare hseq hd
  rw [Document.events, hss, sectionsEvents, Seg.events_append, Seg.acceptsAll_append, hk]
  exact ⟨hpeers, hacc, haccs⟩

/-- One symmetric peer behind the section `global`. -/
def globalFirst : SampleFile where
  heading := []
  headed := List.forall_mem_nil _
  global := ⟨[⟨[("name", "here")], List.cons_ne_nil _ _⟩], List.cons_ne_nil _ _⟩
  before := none
  peers := [⟨"texas", [("threads", "1")], texas_short, by decide⟩]
  nonempty := List.cons_ne_nil _ _
  behind := none
  trailer := []
  trailed := List.forall_mem_nil _

def globalFirstConfiguration : Configuration where
  toDocument := globalFirst.document
  distinct := by decide
  distinctKeys := by decide

/-- The same sections in the other order. -/
def globalLastConfiguration : Configuration where
  toDocument :=
    { globalFirst.document with
      sections := globalFirst.document.sections.reverse
      nonempty := by simp [globalFirst.document.nonempty] }
  distinct := by decide
  distinctKeys := by decide

theorem globalFirst_loads :
    ∃ peers, globalFirstConfiguration.Loads offline (blankLoader 0) peers :=
  (Configuration.exists_loads (blankLoader_start 0)).mpr
    (globalFirst.events (blankLoader 0).spare (blankLoader 0).seg rfl (by decide)).2

/-! ## One section more

The names of sections are compared by 15 bytes, and there are more names than a file uses. -/

/-- There is a name not used yet that the loader takes for `symmetric-peers`. -/
theorem exists_freshName (names : List CStr) :
    ∃ k : CStr, k ∉ names ∧ k ≠ "symmetric-peers" ∧
      ∀ last, strncmpEq "symmetric-peers" (clip last k) 15 = true := by
  obtain ⟨n, hn⟩ := Infinite.exists_notMem_finset (names.map fun k => k.length - 16).toFinset
  have hzero : (0 : UInt8) ∉
      (CStr.ofString "symmetric-peers").val ++ List.replicate (n + 1) 45 := by
    rw [List.mem_append, not_or]
    exact ⟨(CStr.ofString "symmetric-peers").property, fun h => absurd (List.eq_of_mem_replicate h)
      (by decide)⟩
  have hfifteen : (CStr.ofString "symmetric-peers").val.length = 15 := by decide
  refine ⟨⟨_, hzero⟩, fun hmem => hn ?_, fun heq => ?_, fun last => ?_⟩
  · rw [List.mem_toFinset, List.mem_map]
    refine ⟨_, hmem, ?_⟩
    rw [CStr.length, List.length_append, List.length_replicate, hfifteen]
    omega
  · have hlen := congrArg (fun k : CStr => k.val.length) heq
    simp only [List.length_append, List.length_replicate, hfifteen] at hlen
    omega
  · rw [strncmpEq, clip_take (by omega), List.take_append_of_le_length (by rw [hfifteen])]
    exact beq_self_eq_true _

/-- A section with one entry that has nothing but a name. -/
def loneSection (k : CStr) : Section := ⟨k, true, ⟨[⟨[("name", "x")], by simp⟩], by simp⟩⟩

def Configuration.append (c : Configuration) (k : CStr) (hk : k ∉ c.sections.map Section.name) :
    Configuration where
  toDocument :=
    { c.toDocument with
      sections := c.sections ++ [loneSection k]
      nonempty := by simp }
  distinct := by
    rw [List.map_append, List.nodup_append]
    refine ⟨c.distinct, by simp, fun a ha b hb => ?_⟩
    rw [List.map_singleton, List.mem_singleton] at hb
    rintro rfl
    have hname : (loneSection k).name = k := rfl
    exact hk (hname ▸ hb ▸ ha)
  distinctKeys s hs e he := by
    rcases List.mem_append.mp hs with hold | hnew
    · exact c.distinctKeys s hold e he
    · rw [List.mem_singleton.mp hnew] at he
      rw [List.mem_singleton.mp he]
      simp [Entry.keys]

theorem Configuration.append_events (c : Configuration) {k : CStr}
    (hk : k ∉ c.sections.map Section.name) :
    (c.append k hk).events = c.events ++ (loneSection k).events := by
  obtain ⟨s, ss, hss⟩ := List.exists_cons_of_ne_nil c.nonempty
  simp [Document.events, Configuration.append, hss, sectionsEvents]

/-- A section that the loader takes for `symmetric-peers` adds its entry to the peers. -/
theorem loneSection_events (env : Env) {sp : Spare} {seg : Seg} {k : CStr}
    (hk : strncmpEq "symmetric-peers" (clip sp.key k) 15 = true) :
    (seg.events sp (loneSection k).events).peers = ⟨"x", []⟩ :: seg.peers ∧
      seg.AcceptsAll env sp (loneSection k).events := by
  have hevents : (loneSection k).events =
      [.key k, .sectionStart] ++ pairEvents ("name", "x") := rfl
  have hhead : seg.events sp [.key k, .sectionStart] =
      { seg with key := clip sp.key k, sequence := seqSpeer } := by
    simp only [Seg.events, List.foldl_cons, List.foldl_nil, Seg.event, Seg.startSection, hk,
      if_true]
  have hseq : ({ seg with key := clip sp.key k, sequence := seqSpeer } : Seg).sequence =
      seqSpeer := rfl
  have hshort : CStr.length "x" < 255 := by decide
  obtain ⟨hin, hacc⟩ := Seg.events_name env sp hseq hshort
  rw [hevents, Seg.events_append, Seg.acceptsAll_append, hhead]
  exact ⟨hin.peers, ⟨fun v hv => (by cases hv), fun v hv => (by cases hv), trivial⟩, hacc⟩

/-- The longer configuration is accepted as well and has one peer more. -/
theorem Configuration.append_loads {env : Env} {ld₀ : Loader} (h₀ : ld₀.Start) {c : Configuration}
    {k : CStr} (hk : k ∉ c.sections.map Section.name)
    (hpre : strncmpEq "symmetric-peers" (clip ld₀.spare.key k) 15 = true)
    {peers : List PeerCtx} (hload : c.Loads env ld₀ peers) :
    ∃ peers', (c.append k hk).Loads env ld₀ peers' ∧ peers'.length = peers.length + 1 := by
  obtain ⟨hpeers, hacc⟩ := loneSection_events env hpre
  have hold := (Configuration.exists_loads h₀).mp ⟨peers, hload⟩
  have hnew : ld₀.seg.AcceptsAll env ld₀.spare (c.append k hk).events := by
    rw [c.append_events hk, Seg.acceptsAll_append]
    exact ⟨hold, hacc⟩
  obtain ⟨peers', hload'⟩ := (Configuration.exists_loads h₀).mpr hnew
  refine ⟨peers', hload', ?_⟩
  rw [hload'.length h₀, hload.length h₀, c.append_events hk, Seg.events_append, hpeers,
    List.length_cons]

/-- A configuration that `load_config` accepts is never independent of its other sections: one more
at the end can add a peer. -/
theorem orderIndependent_never (env : Env) {ld₀ : Loader} (h₀ : ld₀.Start) (c : Configuration)
    {peers : List PeerCtx} (hload : c.Loads env ld₀ peers) : ¬ OrderIndependent env ld₀ c := by
  intro hind
  obtain ⟨k, hfresh, hother, hpre⟩ := exists_freshName (c.sections.map Section.name)
  have hadd : Rearranged c.sections (c.append k hfresh).sections := by
    have h : Rearranged (c.sections ++ []) (c.sections ++ loneSection k :: []) := .add hother
    rwa [List.append_nil] at h
  obtain ⟨peers', hload', hlen⟩ := c.append_loads h₀ hfresh (hpre _) hload
  have hsame := hind (c.append k hfresh) rfl rfl hadd peers hload
  rw [hload'.length h₀, ← hsame.length h₀] at hlen
  omega

/-- In the order `global`, `symmetric-peers` the file defines one peer, in the other order none. -/
theorem orderIndependent_fails :
    ¬ ∀ (env : Env) (ld₀ : Loader) (c : Configuration) (peers : List PeerCtx), ld₀.Start →
      c.Loads env ld₀ peers → OrderIndependent env ld₀ c := by
  intro hall
  have h₀ := blankLoader_start 0
  obtain ⟨peers, hload⟩ := globalFirst_loads
  have hswap : Rearranged globalFirstConfiguration.sections globalLastConfiguration.sections :=
    .sections (List.reverse_perm _).symm
  have hload' := hall offline (blankLoader 0) globalFirstConfiguration peers h₀ hload
    globalLastConfiguration rfl rfl hswap peers hload
  have hone : ((blankLoader 0).seg.events (blankLoader 0).spare
      globalFirstConfiguration.events).peers = _ :=
    (globalFirst.events _ _ rfl (show ∀ e ∈ globalFirst.peers, e.Accepted offline by decide)).1
  have hnone := (globalLastConfiguration.toDocument.no_peers offline (blankLoader 0) (by decide)).1
  have hlen := hload'.length h₀
  rw [hload.length h₀, hone, hnone] at hlen
  cases hlen

end Lanes
