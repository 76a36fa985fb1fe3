import Lanes.Config.Segment

/-!
# Configuration files in block style

A configuration is a block mapping of sections, each of which is a block sequence of mappings of
scalars. This module gives the tokens of such a file, what the loops read of it (the first section
is left to the loop over the first mapping, which keeps nothing but keys) and what the pairs of a
section do to the abstract loader.

A file of this form is always read to its end: `Document.reading` composes it from the readings of
its sections, and these from those of their entries, with `Reading.flatMap` at either level. Which
events come out depends on the indentation. The dashes of a section may stand under its key or
deeper; only the deeper ones open a sequence for the scanner, and only such a section is taken for
one (`Section.events`).
-/

namespace Lanes

/-! ## Tokens of a configuration

What `yaml_parser_scan` delivers for the file, token by token. Comments and the marks of a document
in front or behind are allowed; anchors, tags, flow style and nested mappings are not this form. -/

/-- A mapping of scalars, as an entry of a section. -/
structure Entry where
  pairs : List (CStr × CStr)
  nonempty : pairs ≠ []

/-- The entries of a section. -/
abbrev Entries := { es : List Entry // es ≠ [] }

/-- A section: its key and a sequence of mappings, which the scanner brackets with
`BLOCK-SEQUENCE-START` and `BLOCK-END` when it stands deeper than the key. -/
structure Section where
  name : CStr
  indented : Bool
  entries : Entries

/-- Tokens that may stand before and behind the mapping. -/
def Token.Marker (t : Token) : Prop :=
  t = .versionDirective ∨ t = .tagDirective ∨ t = .documentStart ∨ t = .documentEnd

/-- A file: a mapping of one or more sections. -/
structure Document where
  heading : List Token
  headed : ∀ t ∈ heading, t.Marker
  sections : List Section
  nonempty : sections ≠ []
  trailer : List Token
  trailed : ∀ t ∈ trailer, t.Marker

def pairTokens (p : CStr × CStr) : List Token := [.key, .scalar p.1, .value, .scalar p.2]

/-- The mapping of an entry. -/
def Entry.body (e : Entry) : List Token :=
  .blockMappingStart :: (e.pairs.flatMap pairTokens ++ [.blockEnd])

def Entry.tokens (e : Entry) : List Token := .blockEntry :: e.body

def Section.tokens (s : Section) : List Token :=
  [.key, .scalar s.name, .value] ++
    ((if s.indented then [.blockSequenceStart] else []) ++
      (s.entries.val.flatMap Entry.tokens ++ if s.indented then [.blockEnd] else []))

/-- The tokens up to the end of the last section. -/
def Document.front (d : Document) : List Token :=
  .streamStart :: (d.heading ++ .blockMappingStart :: d.sections.flatMap Section.tokens)

def Document.tokens (d : Document) : List Token := d.front ++ .blockEnd :: d.trailer

theorem Token.Marker.inside {t : Token} (h : t.Marker) : t ≠ .streamEnd ∧ t ≠ .noToken := by
  rcases h with rfl | rfl | rfl | rfl <;> simp

theorem pairTokens_inside (p : CStr × CStr) :
    ∀ t ∈ pairTokens p, t ≠ .streamEnd ∧ t ≠ .noToken := by
  simp [pairTokens]

theorem Entry.tokens_inside (e : Entry) : ∀ t ∈ e.tokens, t ≠ .streamEnd ∧ t ≠ .noToken := by
  intro t ht
  simp only [Entry.tokens, Entry.body, List.mem_append, List.mem_cons, List.mem_flatMap] at ht
  rcases ht with rfl | rfl | ⟨p, -, hp⟩ | rfl | ⟨⟨⟩⟩
  · simp
  · simp
  · exact pairTokens_inside p t hp
  · simp

theorem Section.tokens_inside (s : Section) :
    ∀ t ∈ s.tokens, t ≠ .streamEnd ∧ t ≠ .noToken := by
  intro t ht
  simp only [Section.tokens, List.mem_append, List.mem_flatMap] at ht
  rcases ht with hkey | hopen | ⟨e, -, he⟩ | hclose
  · exact pairTokens_inside (s.name, s.name) t (List.mem_append_left [_] hkey)
  · split at hopen <;> simp_all
  · exact e.tokens_inside t he
  · split at hclose <;> simp_all

theorem Document.tokens_inside (d : Document) :
    ∀ t ∈ d.tokens, t ≠ .streamEnd ∧ t ≠ .noToken := by
  intro t ht
  simp only [Document.tokens, Document.front, List.mem_append, List.mem_cons, List.mem_flatMap]
    at ht
  rcases ht with (rfl | hhead | rfl | ⟨s, -, hs⟩) | rfl | htrail
  · simp
  · exact (d.headed t hhead).inside
  · simp
  · exact s.tokens_inside t hs
  · simp
  · exact (d.trailed t htrail).inside

/-- The file with these tokens. -/
def Document.file (d : Document) : ConfigFile where
  opened := true
  stream := ⟨d.tokens, d.tokens_inside, true⟩

/-! ## Events of a configuration

Keys and values in the order of the file, with a mark where a section starts. Of the first section
only keys are left. -/

def pairEvents (p : CStr × CStr) : List Event := [.key p.1, .value p.2]

def Entry.events (e : Entry) : List Event := e.pairs.flatMap pairEvents

def Entry.keys (e : Entry) : List CStr := e.pairs.map Prod.fst

/-- The keys of a section of which nothing else is kept. -/
def Section.keys (s : Section) : List CStr := s.name :: s.entries.val.flatMap Entry.keys

/-- The events of a section behind the first one. -/
def Section.events (s : Section) : List Event :=
  if s.indented then [.key s.name, .sectionStart] ++ s.entries.val.flatMap Entry.events
  else s.keys.map .key

def sectionsEvents : List Section → List Event
  | [] => []
  | s :: ss => s.keys.map .key ++ ss.flatMap Section.events

def Document.events (d : Document) : List Event := sectionsEvents d.sections

/-! ## What the loops read

One lemma for each part of a file and each loop that may meet it. -/

/-- Parts that each lead back to the loop head they start from. -/
theorem Reading.flatMap {ι : Type*} {pos pos' : Pos} {ts : List Token} {evs : List Event}
    {f : ι → List Token} {g : ι → List Event} {l : List ι} (h : Reading pos ts evs (.head pos'))
    (hl : ∀ i ∈ l, Reading pos' (f i) (g i) (.head pos')) :
    Reading pos (ts ++ l.flatMap f) (evs ++ l.flatMap g) (.head pos') := by
  induction l generalizing ts evs with
  | nil => simpa using h
  | cons i l ih =>
    rw [List.flatMap_cons, List.flatMap_cons, ← List.append_assoc, ← List.append_assoc]
    exact ih (h.trans (hl i (by simp))) fun j hj => hl j (by simp [hj])

theorem reads_other {t : Token} (hmap : t ≠ .blockMappingStart) (hkey : t ≠ .key)
    (hend : t ≠ .streamEnd) : Reads .stream [t] [] (.head .stream) := by
  have h := Reads.other hmap hkey
  rwa [afterStream, if_neg hend] at h

theorem reads_mappingOther {t : Token} (hkey : t ≠ .key) (hend : t ≠ .blockEnd) :
    Reads .mapping [t] [] (.head .mapping) := by
  have h := Reads.mappingOther hkey
  rwa [afterMapping, if_neg hend] at h

theorem reads_blockEnd : Reads .stream [.blockEnd] [] (.head .stream) :=
  reads_other (by simp) (by simp) (by simp)

theorem Token.Marker.reading {t : Token} (h : t.Marker) :
    Reading .stream [t] [] (.head .stream) := by
  rcases h with rfl | rfl | rfl | rfl <;> exact .one (reads_other (by simp) (by simp) (by simp))

/-- The loop over the first mapping takes the mapping of any entry for its own, keeps its keys and
ends with it. -/
theorem Entry.reading_keys {pos : Pos} (e : Entry)
    (h : Reads pos [.blockMappingStart] [] (.head .mapping)) :
    Reading pos e.body (e.keys.map .key) (.head .stream) := by
  have hpair : ∀ p ∈ e.pairs, Reading .mapping (pairTokens p) [.key p.1] (.head .mapping) :=
    fun p _ => .one (.mappingValue (a := .scalar p.1) (c := .scalar p.2))
  have hend : Reading .mapping [.blockEnd] [] (.head .stream) := .one (.mappingOther (by simp))
  have hall := (Reading.flatMap (.one h) hpair).trans hend
  have hkeys : e.keys.map Event.key = e.pairs.flatMap fun p => [.key p.1] := by
    rw [Entry.keys, List.map_map, List.map_eq_flatMap]
    rfl
  rw [hkeys]
  simpa [Entry.body] using hall

/-- An entry that the outer loop meets. -/
theorem Entry.reading_skipped (e : Entry) :
    Reading .stream e.tokens (e.keys.map .key) (.head .stream) :=
  .step (reads_other (t := .blockEntry) (by simp) (by simp) (by simp))
    (e.reading_keys .mappingStart)

/-- Once the outer loop has the rest of a section it keeps the keys. -/
theorem reading_rest {pos : Pos} {ts : List Token} {evs : List Event} (indented : Bool)
    (es : List Entry) (h : Reading pos ts evs (.head .stream)) :
    Reading pos (ts ++ (es.flatMap Entry.tokens ++ if indented then [.blockEnd] else []))
      (evs ++ es.flatMap fun e => e.keys.map .key) (.head .stream) := by
  have hes := h.flatMap fun e (_ : e ∈ es) => e.reading_skipped
  cases indented with
  | false => simpa using hes
  | true => simpa using hes.trans (.one reads_blockEnd)

/-- The first section: the loop over the first mapping ends with the first entry. -/
theorem Section.reading_first (s : Section) :
    Reading .mapping s.tokens (s.keys.map .key) (.head .stream) := by
  obtain ⟨name, indented, ⟨es, hne⟩⟩ := s
  obtain ⟨e, es, rfl⟩ := List.exists_cons_of_ne_nil hne
  have hbody := e.reading_keys (reads_mappingOther (t := .blockMappingStart) (by simp) (by simp))
  have hfirst : Reading .mapping
      ([.key, .scalar name, .value] ++
        ((if indented then [.blockSequenceStart] else []) ++ e.tokens))
      (.key name :: e.keys.map .key) (.head .stream) := by
    cases indented with
    | false =>
      exact .step (.mappingValue (a := .scalar name) (c := .blockEntry)) hbody
    | true =>
      exact .step (.mappingValue (a := .scalar name) (c := .blockSequenceStart))
        (.step (reads_mappingOther (t := .blockEntry) (by simp) (by simp)) hbody)
  have hall := reading_rest indented es hfirst
  simpa [Section.tokens, Section.keys, List.map_flatMap] using hall

/-- The pairs of an entry, after its first `KEY`; the token behind the entry is read as well. -/
theorem reading_pairs {d : Token} (hd : d = .blockEntry ∨ d = .blockEnd) (p : CStr × CStr)
    (pairs : List (CStr × CStr)) :
    Reading (.entry .key)
      ([.scalar p.1, .value, .scalar p.2] ++ (pairs.flatMap pairTokens ++ [.blockEnd, d]))
      (pairEvents p ++ pairs.flatMap pairEvents) (afterSequence d) := by
  induction pairs generalizing p with
  | nil =>
    have h := Reading.step (.lastPair (k := p.1) (v := p.2)) (.one (.entryEnd hd))
    simpa [pairEvents] using h
  | cons q pairs ih =>
    have h := Reading.step (.pair (k := p.1) (v := p.2) (d := .key) (by simp)) (ih q)
    simpa [pairEvents, pairTokens] using h

theorem Entry.reading_body {d : Token} (hd : d = .blockEntry ∨ d = .blockEnd) (e : Entry) :
    Reading .sequence (e.body ++ [d]) e.events (afterSequence d) := by
  obtain ⟨pairs, hne⟩ := e
  obtain ⟨p, pairs, rfl⟩ := List.exists_cons_of_ne_nil hne
  have h := Reading.step (.entryStart (t := .key)) (reading_pairs hd p pairs)
  simpa [Entry.body, Entry.events, pairTokens] using h

/-- The entries of a section, after the first `BLOCK-ENTRY`. -/
theorem reading_entries (e : Entry) (es : List Entry) :
    Reading .sequence (e.body ++ (es.flatMap Entry.tokens ++ [.blockEnd]))
      (e.events ++ es.flatMap Entry.events) (.head .stream) := by
  induction es generalizing e with
  | nil =>
    have h := e.reading_body (d := .blockEnd) (Or.inr rfl)
    simpa [afterSequence] using h
  | cons e' es ih =>
    have h := (e.reading_body (d := .blockEntry) (Or.inl rfl)).trans (ih e')
    simpa [Entry.tokens] using h

/-- A section behind the first one. Without `BLOCK-SEQUENCE-START` the outer loop does not take it
for a section. -/
theorem Section.reading (s : Section) : Reading .stream s.tokens s.events (.head .stream) := by
  obtain ⟨name, indented, ⟨es, hne⟩⟩ := s
  obtain ⟨e, es, rfl⟩ := List.exists_cons_of_ne_nil hne
  cases indented with
  | true =>
    have h := Reading.step (.entries (a := .scalar name)) (reading_entries e es)
    simpa [Section.tokens, Section.events, Entry.tokens, keyEvents] using h
  | false =>
    have hkey : Reads .stream [.key, .scalar name, .value, .blockEntry] [.key name]
        (.head .stream) := by
      have h := Reads.keyValue (a := .scalar name) (c := .blockEntry) (by simp)
      simpa [afterStream, keyEvents] using h
    have h := reading_rest false es (.step hkey (e.reading_keys .mappingStart))
    simpa [Section.tokens, Section.events, Section.keys, Entry.tokens, List.map_flatMap] using h

/-- The outer loop gets to the end of a configuration. -/
theorem Document.reading (d : Document) :
    Reading .stream (d.tokens ++ [.streamEnd]) d.events .finished := by
  obtain ⟨heading, hheading, sections, hne, trailer, htrailer⟩ := d
  obtain ⟨s, ss, rfl⟩ := List.exists_cons_of_ne_nil hne
  have hstart : Reading .stream [.streamStart] [] (.head .stream) :=
    .one (reads_other (by simp) (by simp) (by simp))
  have hhead := hstart.flatMap fun t ht => (hheading t ht).reading
  have hfirst := (hhead.trans (.one .mappingStart)).trans s.reading_first
  have hsections := hfirst.flatMap fun s (_ : s ∈ ss) => s.reading
  have htail := (hsections.trans (.one reads_blockEnd)).flatMap fun t ht => (htrailer t ht).reading
  have hend : Reading .stream [.streamEnd] [] .finished := .one (.other (by simp) (by simp))
  have hall := htail.trans hend
  have hnil : ∀ l : List Token, l.flatMap (fun _ => ([] : List Event)) = [] := by simp
  simpa [Document.tokens, Document.front, Document.events, sectionsEvents, hnil] using hall

/-! ## Sections and the abstract loader

Which events a section needs to have an effect: the section that is compared well with last decides
for whom its pairs are, and outside the symmetric peers they reach no peer. -/

section Seg

variable (env : Env) (sp : Spare) (seg : Seg)

/-- Keys alone change nothing but the key. -/
theorem Seg.events_keys (ks : List CStr) :
    (∃ k, seg.events sp (ks.map .key) = { seg with key := k }) ∧
      seg.AcceptsAll env sp (ks.map .key) := by
  induction ks generalizing seg with
  | nil => exact ⟨⟨seg.key, rfl⟩, trivial⟩
  | cons k ks ih =>
    obtain ⟨⟨k', hk'⟩, hacc⟩ := ih (seg.event sp (.key k))
    exact ⟨⟨k', hk'⟩, fun v hv => (nomatch hv), hacc⟩

/-- A pair is its value, read behind its key. -/
theorem Seg.acceptsAll_pair (k v : CStr) :
    seg.AcceptsAll env sp (pairEvents (k, v)) ↔
      ({ seg with key := clip sp.key k } : Seg).Accepts env sp v := by
  constructor
  · exact fun hall => hall.2.1 v rfl
  · refine fun hacc => ⟨fun w hw => (by cases hw), fun w hw => ?_, trivial⟩
    cases hw
    exact hacc

theorem Seg.value_sequence (v : CStr) : (seg.value sp v).sequence = seg.sequence := by
  have hextend : ∀ seg : Seg, (seg.extend v).sequence = seg.sequence := fun seg => by
    unfold Seg.extend
    split <;> rfl
  simp only [Seg.value]
  split
  · split
    · rw [hextend, remember_sequence]
    · exact remember_sequence seg v
  · exact remember_sequence seg v

/-- Only the start of a section changes what the pairs are for. -/
theorem Seg.events_sequence {seg : Seg} {evs : List Event} (hevs : .sectionStart ∉ evs) :
    (seg.events sp evs).sequence = seg.sequence := by
  induction evs generalizing seg with
  | nil => rfl
  | cons ev evs ih =>
    rw [List.mem_cons, not_or] at hevs
    refine (ih hevs.2).trans ?_
    cases ev with
    | key k => rfl
    | sectionStart => exact absurd rfl hevs.1
    | value v => exact seg.value_sequence sp v

/-- Outside the section of the symmetric peers no pair reaches a peer. -/
theorem Seg.events_idle {seg : Seg} {evs : List Event} (hseq : seg.sequence ≠ seqSpeer)
    (hevs : .sectionStart ∉ evs) :
    (seg.events sp evs).peers = seg.peers ∧ (seg.events sp evs).sequence = seg.sequence ∧
      seg.AcceptsAll env sp evs := by
  induction evs generalizing seg with
  | nil => exact ⟨rfl, rfl, trivial⟩
  | cons ev evs ih =>
    rw [List.mem_cons, not_or] at hevs
    have hev : (seg.event sp ev).peers = seg.peers ∧
        (seg.event sp ev).sequence = seg.sequence := by
      cases ev with
      | key k => exact ⟨rfl, rfl⟩
      | sectionStart => exact absurd rfl hevs.1
      | value v => simp [Seg.event, Seg.value, hseq]
    obtain ⟨hpeers, hsequence, hacc⟩ := ih (by rw [hev.2]; exact hseq) hevs.2
    exact ⟨hpeers.trans hev.1, hsequence.trans hev.2, fun v _ hs => absurd hs hseq, hacc⟩

theorem Entry.events_no_section (e : Entry) : .sectionStart ∉ e.events := by
  simp [Entry.events, pairEvents]

theorem entries_events_no_section (es : List Entry) :
    .sectionStart ∉ es.flatMap Entry.events := by
  rw [List.mem_flatMap]
  rintro ⟨e, -, he⟩
  exact e.events_no_section he

/-- A section whose name does not lead into the symmetric peers adds none. -/
theorem Section.events_idle {seg : Seg} {s : Section}
    (hs : ({ seg with key := clip sp.key s.name } : Seg).startSection.sequence ≠ seqSpeer) :
    (seg.events sp s.events).peers = seg.peers ∧
      (seg.sequence ≠ seqSpeer → (seg.events sp s.events).sequence ≠ seqSpeer) ∧
      seg.AcceptsAll env sp s.events := by
  unfold Section.events
  split
  · have hstart :
        ({ seg with key := clip sp.key s.name } : Seg).startSection.peers = seg.peers := by
      unfold Seg.startSection
      split
      · rfl
      · split <;> rfl
    obtain ⟨hpeers, hsequence, hacc⟩ := Seg.events_idle env sp hs
      (entries_events_no_section s.entries.val)
    rw [Seg.events_append, Seg.acceptsAll_append]
    refine ⟨hpeers.trans hstart, fun _ => ?_,
      ⟨fun v hv => (nomatch hv), fun v hv => (nomatch hv), trivial⟩, hacc⟩
    intro hspeer
    exact hs (hsequence.symm.trans hspeer)
  · obtain ⟨⟨k, hk⟩, hacc⟩ := Seg.events_keys env sp seg s.keys
    rw [hk]
    exact ⟨rfl, id, hacc⟩

end Seg

end Lanes
