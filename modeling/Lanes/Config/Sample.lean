import Mathlib.Data.List.Range
import Lanes.Config.Document

/-!
# The peers of a file in the format of `sample.yaml`

The first section is `global`, the section of the symmetric peers is behind it, and every entry
starts with its `name`. `load_config` then makes one peer of each entry, in the order of the file,
and gives it exactly the pairs of that entry.

`load_config` has no notion of an entry. It starts a peer at a value under `name` and gives every
other pair to the newest peer, as long as the name it remembers starts with the name of that peer.
`Seg.Ongoing` is what has to hold for that between the pairs of one entry, and
**`sampleFile_peers`** the result for the whole file: the peers, their numbers, their names and
what `applyPairs` makes of each of them.
-/

namespace Lanes

/-! ## Keys of an entry

The comparisons with `name` are prefix comparisons in both directions, so a key has to be apart from
`name` in both. The documented ones are. -/

/-- The keys of `sample.yaml` and of `load_config`, besides `name`. -/
def documentedKeys : List CStr :=
  ["type", "ip-version", "threads", "interface", "map-interface", "tunnel", "peer-ip", "next-hop",
    "local-ip", "cipher", "key", "socket", "pipe", "algorithm", "certificate"]

/-- The loader's comparisons do not take the key for `name`, and it fits into the array. -/
def PlainKey (k : CStr) : Prop :=
  strncmpEq "name" k 4 = false ∧ strncmpEq k "name" k.length = false ∧ k.length < 255

instance (k : CStr) : Decidable (PlainKey k) := inferInstanceAs (Decidable (_ ∧ _ ∧ _))

theorem plainKey_of_documented : ∀ k ∈ documentedKeys, PlainKey k := by decide

/-- An entry of the format: its name comes first. -/
structure PeerEntry where
  name : CStr
  pairs : List (CStr × CStr)
  short : name.length < 255
  documented : ∀ p ∈ pairs, p.1 ∈ documentedKeys

namespace PeerEntry

def entry (e : PeerEntry) : Entry where
  pairs := ("name", e.name) :: e.pairs
  nonempty := by simp

def spec (e : PeerEntry) : PeerSpec := ⟨e.name, e.pairs⟩

/-- `load_config` ends the process at none of the pairs. -/
def Accepted (env : Env) (e : PeerEntry) : Prop := ∀ p ∈ e.pairs, Lanes.Accepted env p.1 p.2

instance (env : Env) (e : PeerEntry) : Decidable (e.Accepted env) :=
  inferInstanceAs (Decidable (∀ p ∈ e.pairs, Lanes.Accepted env p.1 p.2))

end PeerEntry

/-! ## One entry

The name starts a peer, and each pair behind it is appended to the newest one. -/

section Entries

variable (env : Env) (sp : Spare) {seg : Seg} {nm : CStr} {done : List (CStr × CStr)}
  {ps : List PeerSpec}

/-- The next pair goes to the newest peer, unless its key says otherwise. -/
structure Seg.Ongoing (seg : Seg) : Prop where
  sequence : seg.sequence = seqSpeer
  started : seg.peers ≠ []
  name : strncmpEq seg.lastName seg.name seg.lastName.length = true

theorem Seg.events_plain {k : CStr} (h : seg.Ongoing) (v : CStr) (hk : PlainKey k) :
    seg.events sp (pairEvents (k, v)) = ({ seg with key := k } : Seg).extend v ∧
      (seg.AcceptsAll env sp (pairEvents (k, v)) ↔ Accepted env k v) := by
  obtain ⟨hname, hpre, hshort⟩ := hk
  have hkey : clip sp.key k = k := clip_of_short hshort
  have hremember : ({ seg with key := k } : Seg).remember sp v = { seg with key := k } := by
    rw [Seg.remember, if_neg (by simp [hname])]
  have hcont : ({ seg with key := k } : Seg).Continues := ⟨h.started, hpre, h.name⟩
  constructor
  · simp only [pairEvents, Seg.events, List.foldl_cons, List.foldl_nil, Seg.event, Seg.value, hkey,
      hremember, if_pos hcont]
    rw [if_pos h.sequence]
  · rw [Seg.acceptsAll_pair, hkey]
    refine ⟨fun hacc => hacc h.sequence ?_, fun hacc _ _ => hacc⟩
    rw [hremember]
    exact hcont

/-- The loader is inside the entry of the newest peer and has read the pairs `done` of it. -/
structure Seg.InEntry (seg : Seg) (nm : CStr) (done : List (CStr × CStr)) (ps : List PeerSpec) :
    Prop where
  name : seg.name = nm
  lastName : seg.lastName = nm
  sequence : seg.sequence = seqSpeer
  peers : seg.peers = ⟨nm, done⟩ :: ps

/-- A pair `name` starts a peer, whatever the names before it. -/
theorem Seg.events_name (hseq : seg.sequence = seqSpeer) (hshort : nm.length < 255) :
    (seg.events sp (pairEvents ("name", nm))).InEntry nm [] seg.peers ∧
      seg.AcceptsAll env sp (pairEvents ("name", nm)) := by
  have hkey : clip sp.key "name" = "name" := clip_of_short (by decide)
  have hfour : strncmpEq "name" "name" 4 = true := by decide
  have hname : strncmpEq "name" "name" (CStr.length "name") = true := by decide
  have hremember : ({ seg with key := "name" } : Seg).remember sp nm =
      { seg with key := "name", name := nm } := by
    rw [Seg.remember, if_pos hfour, clip_of_short hshort]
  have hstart : ¬ ({ seg with key := "name", name := nm } : Seg).Continues := fun h => by
    rw [h.2.1] at hname
    cases hname
  have hevents : seg.events sp (pairEvents ("name", nm)) =
      ({ seg with key := "name", name := nm } : Seg).startPeer sp := by
    simp only [pairEvents, Seg.events, List.foldl_cons, List.foldl_nil, Seg.event, Seg.value, hkey,
      hremember, if_neg hstart]
    rw [if_pos hseq]
  refine ⟨?_, fun v hv => (by cases hv), fun v hv => ?_, trivial⟩
  · rw [hevents]
    exact ⟨rfl, clip_of_short hshort, hseq, rfl⟩
  · cases hv
    intro _ hcont
    have hcont' : (({ seg with key := clip sp.key "name" } : Seg).remember sp nm).Continues :=
      hcont
    rw [hkey, hremember] at hcont'
    exact absurd hcont' hstart

theorem Seg.InEntry.ongoing (h : seg.InEntry nm done ps) : seg.Ongoing where
  sequence := h.sequence
  started := by simp [h.peers]
  name := by
    rw [h.lastName, h.name]
    exact strncmpEq_self _ _

/-- Another pair goes to the newest peer. -/
theorem Seg.InEntry.pair (h : seg.InEntry nm done ps) {k : CStr} (v : CStr) (hk : PlainKey k) :
    (seg.events sp (pairEvents (k, v))).InEntry nm (done ++ [(k, v)]) ps ∧
      (Accepted env k v → seg.AcceptsAll env sp (pairEvents (k, v))) := by
  obtain ⟨hevents, hacc⟩ := Seg.events_plain env sp h.ongoing v hk
  refine ⟨?_, hacc.mpr⟩
  rw [hevents, Seg.extend]
  simp only [h.peers]
  exact ⟨h.name, h.lastName, h.sequence, rfl⟩

theorem Seg.InEntry.rest {rest : List (CStr × CStr)} (h : seg.InEntry nm done ps)
    (hrest : ∀ p ∈ rest, PlainKey p.1 ∧ Accepted env p.1 p.2) :
    (seg.events sp (rest.flatMap pairEvents)).InEntry nm (done ++ rest) ps ∧
      seg.AcceptsAll env sp (rest.flatMap pairEvents) := by
  induction rest generalizing seg done with
  | nil => exact ⟨by rw [List.append_nil]; exact h, trivial⟩
  | cons p rest ih =>
    obtain ⟨hplain, haccept⟩ := hrest p (by simp)
    obtain ⟨hpair, hacc⟩ := h.pair env sp p.2 hplain
    obtain ⟨hin, haccs⟩ := ih hpair fun q hq => hrest q (by simp [hq])
    rw [List.flatMap_cons, Seg.events_append, Seg.acceptsAll_append]
    exact ⟨by simpa using hin, hacc haccept, haccs⟩

theorem PeerEntry.events {env : Env} (e : PeerEntry) (hseq : seg.sequence = seqSpeer)
    (haccept : e.Accepted env) :
    (seg.events sp e.entry.events).InEntry e.name e.pairs seg.peers ∧
      seg.AcceptsAll env sp e.entry.events := by
  obtain ⟨hstart, hacc⟩ := Seg.events_name env sp hseq e.short
  obtain ⟨hin, haccs⟩ := hstart.rest env sp fun p hp =>
    ⟨plainKey_of_documented _ (e.documented p hp), haccept p hp⟩
  rw [Entry.events, PeerEntry.entry, List.flatMap_cons, Seg.events_append, Seg.acceptsAll_append]
  exact ⟨hin, hacc, haccs⟩

/-- The entries of the section, in their order. -/
theorem events_peerEntries {env : Env} (es : List PeerEntry) (hseq : seg.sequence = seqSpeer)
    (haccept : ∀ e ∈ es, e.Accepted env) :
    (seg.events sp (es.flatMap fun e => e.entry.events)).peers =
        (es.map PeerEntry.spec).reverse ++ seg.peers ∧
      seg.AcceptsAll env sp (es.flatMap fun e => e.entry.events) := by
  induction es generalizing seg with
  | nil => exact ⟨rfl, trivial⟩
  | cons e es ih =>
    obtain ⟨hin, hacc⟩ := e.events sp hseq (haccept e (by simp))
    obtain ⟨hpeers, haccs⟩ := ih hin.sequence fun e' he' => haccept e' (by simp [he'])
    rw [List.flatMap_cons, Seg.events_append, Seg.acceptsAll_append]
    refine ⟨?_, hacc, haccs⟩
    rw [hpeers, hin.peers, List.map_cons, List.reverse_cons, List.append_assoc]
    rfl

/-! ## Sections

The section of the asymmetric peers makes none; it only moves the loader out of the section it was
in. That of the symmetric peers is the induction over its entries. -/

def asymmetric (es : Entries) : Section := ⟨"assymetric-peers", true, es⟩

theorem asymmetric_events (seg : Seg) (es : Entries) :
    (seg.events sp (asymmetric es).events).peers = seg.peers ∧
      seg.AcceptsAll env sp (asymmetric es).events := by
  have hkey : clip sp.key "assymetric-peers" = "assymetric-peers" := clip_of_short (by decide)
  have hs : ({ seg with key := clip sp.key (asymmetric es).name } : Seg).startSection.sequence ≠
      seqSpeer := by
    show ({ seg with key := clip sp.key "assymetric-peers" } : Seg).startSection.sequence ≠ _
    rw [hkey]
    exact show seqApeer ≠ seqSpeer by decide
  obtain ⟨hpeers, -, hacc⟩ := Section.events_idle env sp hs
  exact ⟨hpeers, hacc⟩

theorem asymmetric?_events (seg : Seg) (es : Option Entries) :
    (seg.events sp ((es.map asymmetric).toList.flatMap Section.events)).peers = seg.peers ∧
      seg.AcceptsAll env sp ((es.map asymmetric).toList.flatMap Section.events) := by
  cases es with
  | none => exact ⟨rfl, trivial⟩
  | some es => simpa using asymmetric_events env sp seg es

def symmetric (es : List PeerEntry) (hne : es ≠ []) : Section :=
  ⟨"symmetric-peers", true, es.map PeerEntry.entry, by simpa using hne⟩

theorem symmetric_events {env : Env} (seg : Seg) {es : List PeerEntry} (hne : es ≠ [])
    (haccept : ∀ e ∈ es, e.Accepted env) :
    (seg.events sp (symmetric es hne).events).peers =
        (es.map PeerEntry.spec).reverse ++ seg.peers ∧
      seg.AcceptsAll env sp (symmetric es hne).events := by
  have hkey : clip sp.key "symmetric-peers" = "symmetric-peers" := clip_of_short (by decide)
  have hhead : seg.events sp [.key "symmetric-peers", .sectionStart] =
      { seg with key := "symmetric-peers", sequence := seqSpeer } := by
    simp only [Seg.events, List.foldl_cons, List.foldl_nil, Seg.event, hkey]
    rfl
  have hevents : (es.map PeerEntry.entry).flatMap Entry.events =
      es.flatMap fun e => e.entry.events := List.flatMap_map ..
  rw [Section.events, symmetric, if_pos rfl, Seg.events_append, Seg.acceptsAll_append, hhead,
    hevents]
  have hseq : ({ seg with key := "symmetric-peers", sequence := seqSpeer } : Seg).sequence =
      seqSpeer := rfl
  obtain ⟨hpeers, hacc⟩ := events_peerEntries sp es hseq haccept
  exact ⟨hpeers, ⟨fun v hv => (by cases hv), fun v hv => (by cases hv), trivial⟩, hacc⟩

/-! ## The file

`global` stands first, so that its pairs are skipped, and the two sections of peers follow. -/

/-- A file in the format of `sample.yaml`. -/
structure SampleFile where
  heading : List Token
  headed : ∀ t ∈ heading, t.Marker
  global : Entries
  /-- The section of the asymmetric peers, in front of that of the symmetric ones or behind it. -/
  before : Option Entries
  peers : List PeerEntry
  nonempty : peers ≠ []
  behind : Option Entries
  trailer : List Token
  trailed : ∀ t ∈ trailer, t.Marker

def SampleFile.document (file : SampleFile) : Document where
  heading := file.heading
  headed := file.headed
  sections := ⟨"global", true, file.global⟩ :: ((file.before.map asymmetric).toList ++
    symmetric file.peers file.nonempty :: (file.behind.map asymmetric).toList)
  nonempty := by simp
  trailer := file.trailer
  trailed := file.trailed

/-- The abstract loader has the peers of the section of the symmetric peers and no others. -/
theorem SampleFile.events {env : Env} (seg : Seg) (file : SampleFile) (hnone : seg.peers = [])
    (haccept : ∀ e ∈ file.peers, e.Accepted env) :
    (seg.events sp file.document.events).peers = (file.peers.map PeerEntry.spec).reverse ∧
      seg.AcceptsAll env sp file.document.events := by
  obtain ⟨⟨k, hglobal⟩, hacc₁⟩ := Seg.events_keys env sp seg
    (Section.keys ⟨"global", true, file.global⟩)
  obtain ⟨hbefore, hacc₂⟩ := asymmetric?_events env sp { seg with key := k } file.before
  obtain ⟨hpeers, hacc₃⟩ := symmetric_events sp (Seg.events sp { seg with key := k }
    ((file.before.map asymmetric).toList.flatMap Section.events)) file.nonempty haccept
  obtain ⟨hbehind, hacc₄⟩ := asymmetric?_events env sp
    (Seg.events sp (Seg.events sp { seg with key := k }
      ((file.before.map asymmetric).toList.flatMap Section.events))
        (symmetric file.peers file.nonempty).events) file.behind
  have hevents : file.document.events =
      (Section.keys ⟨"global", true, file.global⟩).map .key ++
        ((file.before.map asymmetric).toList.flatMap Section.events ++
          ((symmetric file.peers file.nonempty).events ++
            (file.behind.map asymmetric).toList.flatMap Section.events)) := by
    simp [Document.events, SampleFile.document, sectionsEvents]
  simp only [hevents, Seg.events_append, Seg.acceptsAll_append, hglobal]
  refine ⟨?_, hacc₁, hacc₂, hacc₃, hacc₄⟩
  rw [hbehind, hpeers, hbefore, hnone, List.append_nil]

end Entries

/-! ## The list of peers

From the abstract peers to the structures in memory: the k-th of them, and the order in which the
list `MPL` links them. -/

/-- The k-th structure in the order of the file. -/
theorem InHeap.getElem {env : Env} {garbage heap : Nat → PeerCtx} {specs : List PeerSpec}
    (h : InHeap env garbage heap specs.reverse) {k : Nat} (hk : k < specs.length) :
    applyPairs env specs[k].pairs (namedPeer (garbage (k + 1)) (k + 1) specs[k].name) =
      some (heap (k + 1)) := by
  induction specs using List.reverseRecOn with
  | nil => simp at hk
  | append_singleton specs p ih =>
    rw [List.reverse_append, List.reverse_singleton, List.singleton_append] at h
    obtain ⟨hlast, hrest⟩ := h
    rw [List.length_reverse] at hlast
    by_cases hlt : k < specs.length
    · rw [List.getElem_append_left hlt]
      exact ih hrest hlt
    · obtain rfl : k = specs.length := by
        rw [List.length_append, List.length_singleton] at hk
        omega
      simpa using hlast

theorem nodes_reverse (n : Nat) : (nodes n).reverse = List.range' 1 n := by
  induction n with
  | zero => rfl
  | succ n ih => rw [nodes, List.reverse_cons, ih, List.range'_1_concat, Nat.add_comm 1 n]

theorem namedPeer_name {garbage : PeerCtx} {id : Nat} {name : CStr} (h : name.length < 255) :
    (namedPeer garbage id name).str .name = name :=
  show (garbage.text.strncpy 0 name 255).str 0 256 = name from Mem.str_strncpy h (by decide)

/-- `load_config` makes one peer of every entry of the symmetric peers, numbers them in the order of
the file and applies to each the pairs of its entry. -/
theorem sampleFile_peers (env : Env) (file : SampleFile) {ld₀ : Loader} (h₀ : ld₀.Start)
    (haccept : ∀ e ∈ file.peers, e.Accepted env) :
    ∃ ld, LoadConfig env file.document.file ld₀ (.returned ld) ∧
      ld.mpl.forEachPrev 0 (file.peers.length + 1) = some (List.range' 1 file.peers.length) ∧
      ∀ k (hk : k < file.peers.length),
        (ld.heap (k + 1)).id = k + 1 ∧ (ld.heap (k + 1)).str .name = file.peers[k].name ∧
        applyPairs env file.peers[k].pairs
          (namedPeer (ld₀.heap (k + 1)) (k + 1) file.peers[k].name) = some (ld.heap (k + 1)) := by
  obtain ⟨hpeers, hacc⟩ := file.events ld₀.spare ld₀.seg rfl haccept
  obtain ⟨ld, hld⟩ := h₀.follows.events_isSome.mpr hacc
  have hfollows := h₀.follows.events hld
  have hne : (ld₀.seg.events ld₀.spare file.document.events).peers ≠ [] := by
    rw [hpeers]
    simpa using file.nonempty
  obtain ⟨hcirc, hheap⟩ := hfollows.finish hne
  rw [hpeers, List.length_reverse, List.length_map] at hcirc
  refine ⟨ld.finish, ?_, ?_, fun k hk => ?_⟩
  · obtain ⟨n, hn⟩ := Reading.run env [] ld₀ file.document.reading (Or.inl rfl)
    rw [hld, List.append_nil] at hn
    exact ⟨rfl, n, hn⟩
  · rw [hcirc.forEachPrev (by rw [nodes_length]; omega), nodes_reverse]
  · have hin := hfollows.heap
    rw [hpeers] at hin
    have happly := hin.getElem (k := k) (by simpa using hk)
    simp only [List.getElem_map, PeerEntry.spec] at happly
    obtain ⟨hid, hname⟩ := applyPairs_name happly
    rw [hheap]
    exact ⟨hid, hname.trans (namedPeer_name file.peers[k].short), happly⟩

/-- Two peers, the name of the first a prefix of that of the second. -/
def twoPeers : SampleFile where
  heading := []
  headed := by simp
  global := ⟨[⟨[("name", "testing123")], by simp⟩], by simp⟩
  before := some ⟨[⟨[("name", "fargo"), ("algorithm", "rsa")], by simp⟩], by simp⟩
  peers := [⟨"texas", [("type", "ingress"), ("threads", "1")], by decide, by decide⟩,
    ⟨"texas-out", [], by decide, by decide⟩]
  nonempty := by simp
  behind := none
  trailer := []
  trailed := by simp

theorem sampleFile_peers_twoPeers :
    ∃ ld, LoadConfig offline twoPeers.document.file (blankLoader 65) (.returned ld) ∧
      ld.mpl.forEachPrev 0 3 = some [1, 2] ∧
      ∀ k (hk : k < twoPeers.peers.length),
        (ld.heap (k + 1)).id = k + 1 ∧ (ld.heap (k + 1)).str .name = twoPeers.peers[k].name ∧
        applyPairs offline twoPeers.peers[k].pairs
          (namedPeer ((blankLoader 65).heap (k + 1)) (k + 1) twoPeers.peers[k].name) =
            some (ld.heap (k + 1)) :=
  sampleFile_peers offline twoPeers (blankLoader_start 65) (by decide)

end Lanes
