import Lanes.Config.Sample

/-!
# Which entries count

`load_config` takes an entry for a symmetric peer by where it stands: in a section behind the first
one, indented, while the last section name that it compared well with was `symmetric-peers…` and
not `assymetric-peers…`. The names of other sections change nothing, so what a section is taken for
depends on the sections in front of it.

The entries of the other sections leave one thing behind: the last value of a key `name…`, which
names the next peer if its entry does not start with a key of this kind itself.

* `counted` lists the entries that count, each with the name carried into it, by recursion over the
  sections of a configuration and nothing else (`taken` for the sections behind the first one).
* `Document.peers_eq_counted` says that the peers of a configuration are those of this list, and
  that it ends the process exactly if one of the list does.
* `Seg.Carries` is the invariant between the loader that reads the sections and the one that has
  read what counts only: they differ in the name that an entry without one of its own will find.
-/

namespace Lanes

/-! ## The list

A recursion over the sections that remembers two things: whether entries count at the moment, and
the name that an entry which does not count has left for the next one that does.
-/

/-- The value that is remembered after some pairs. -/
def remembered (pairs : List (CStr × CStr)) (before : Option CStr) : Option CStr :=
  pairs.foldl (fun v p => if strncmpEq "name" p.1 4 then some p.2 else v) before

/-- The first key of the entry is one whose value is remembered. -/
def Entry.named (e : Entry) : Bool := strncmpEq "name" (e.pairs.head e.nonempty).1 4

/-- An entry that counts, with the name carried into it from an entry that does not. -/
structure Taken where
  carried : Option CStr
  entry : Entry

def takenEntries (carried : Option CStr) : List Entry → List Taken
  | [] => []
  | e :: es => ⟨if e.named then none else carried, e⟩ :: es.map (Taken.mk none)

/-- The entries of an indented section count from `symmetric-peers…` on until a section
`assymetric-peers…`. -/
def Section.counts (s : Section) (before : Bool) : Bool :=
  if strncmpEq "symmetric-peers" s.name 15 then true
  else if strncmpEq "assymetric-peers" s.name 16 then false
  else before

/-- The entries that count in a list of sections, where `on` says whether those of the last section
counted. -/
def taken : Bool → Option CStr → List Section → List Taken
  | _, _, [] => []
  | on, carried, s :: ss =>
    if s.indented then
      if s.counts on then takenEntries carried s.entries.val ++ taken true none ss
      else taken false (remembered (s.entries.val.flatMap Entry.pairs) carried) ss
    else taken on carried ss

/-- The entries that count in the sections of a file. The first section is read by another loop. -/
def counted (ss : List Section) : List Taken := taken false none ss.tail

/-! ## What the abstract loader does with it

Reading the entries of the list one after the other, each with the name that is carried into it.
-/

/-- The name that an entry finds. -/
def Seg.carry (sp : Spare) (seg : Seg) : Option CStr → Seg
  | none => seg
  | some v => { seg with name := clip sp.name v }

def Seg.take (sp : Spare) (seg : Seg) (t : Taken) : Seg :=
  (seg.carry sp t.carried).events sp t.entry.events

/-- No pair of the entries is refused. -/
def Seg.AcceptsTaken (env : Env) (sp : Spare) : Seg → List Taken → Prop
  | _, [] => True
  | seg, t :: ts =>
    (seg.carry sp t.carried).AcceptsAll env sp t.entry.events ∧
      (seg.take sp t).AcceptsTaken env sp ts

section Taken

variable (env : Env) (sp : Spare) {seg seg' : Seg} {on : Bool}
  {carried : Option CStr}

@[simp] theorem Seg.carry_peers (v : Option CStr) : (seg.carry sp v).peers = seg.peers := by
  cases v <;> rfl

@[simp] theorem Seg.carry_lastName (v : Option CStr) :
    (seg.carry sp v).lastName = seg.lastName := by
  cases v <;> rfl

@[simp] theorem Seg.carry_sequence (v : Option CStr) :
    (seg.carry sp v).sequence = seg.sequence := by
  cases v <;> rfl

theorem Seg.acceptsTaken_append {ts us : List Taken} :
    seg.AcceptsTaken env sp (ts ++ us) ↔
      seg.AcceptsTaken env sp ts ∧ (ts.foldl (Seg.take sp) seg).AcceptsTaken env sp us := by
  induction ts generalizing seg with
  | nil => exact (and_iff_right trivial).symm
  | cons t ts ih => simp only [List.cons_append, Seg.AcceptsTaken, ih, and_assoc, List.foldl_cons]

/-- An entry sets the key before it reads it, and the name too if it starts with one. -/
theorem Entry.events_congr (e : Entry) (hseq : seg.sequence = seg'.sequence)
    (hlast : seg.lastName = seg'.lastName) (hpeers : seg.peers = seg'.peers)
    (hname : e.named = false → seg.name = seg'.name) :
    seg.events sp e.events = seg'.events sp e.events ∧
      (seg.AcceptsAll env sp e.events ↔ seg'.AcceptsAll env sp e.events) := by
  obtain ⟨pairs, hne⟩ := e
  obtain ⟨⟨k, v⟩, ps, rfl⟩ := List.exists_cons_of_ne_nil hne
  obtain ⟨key, name, lastName, sequence, peers⟩ := seg
  obtain ⟨key', name', lastName', sequence', peers'⟩ := seg'
  obtain rfl : sequence = sequence' := hseq
  obtain rfl : lastName = lastName' := hlast
  obtain rfl : peers = peers' := hpeers
  -- after the first value has been remembered the two states are the same
  have hsame : (⟨clip sp.key k, name, lastName, sequence, peers⟩ : Seg).remember sp v =
      (⟨clip sp.key k, name', lastName, sequence, peers⟩ : Seg).remember sp v := by
    have hfour := strncmpEq_clip "name" sp.key k (n := 4) (by omega)
    unfold Seg.remember
    simp only [hfour]
    by_cases hnamed : strncmpEq "name" k 4 = true
    · rw [if_pos hnamed, if_pos hnamed]
    · obtain rfl : name = name' := hname (by simpa [Entry.named] using hnamed)
      rfl
  have hvalue : (⟨clip sp.key k, name, lastName, sequence, peers⟩ : Seg).value sp v =
      (⟨clip sp.key k, name', lastName, sequence, peers⟩ : Seg).value sp v := by
    unfold Seg.value
    rw [hsame]
  have haccepts : (⟨clip sp.key k, name, lastName, sequence, peers⟩ : Seg).Accepts env sp v ↔
      (⟨clip sp.key k, name', lastName, sequence, peers⟩ : Seg).Accepts env sp v := by
    unfold Seg.Accepts
    rw [hsame]
  have hevents : Entry.events ⟨(k, v) :: ps, hne⟩ =
      pairEvents (k, v) ++ ps.flatMap pairEvents := rfl
  have hpair : Seg.events sp ⟨key, name, lastName, sequence, peers⟩ (pairEvents (k, v)) =
      Seg.events sp ⟨key', name', lastName, sequence, peers⟩ (pairEvents (k, v)) := hvalue
  simp only [hevents, Seg.events_append, Seg.acceptsAll_append, Seg.acceptsAll_pair, hpair]
  exact ⟨trivial, and_congr haccepts Iff.rfl⟩

/-- The entries of a section that does not count leave the name behind that they gave last. -/
theorem Seg.events_off (hoff : seg.sequence ≠ seqSpeer) (pairs : List (CStr × CStr))
    (hname : seg.name = (seg'.carry sp carried).name) :
    (seg.events sp (pairs.flatMap pairEvents)).lastName = seg.lastName ∧
      (seg.events sp (pairs.flatMap pairEvents)).name =
        (seg'.carry sp (remembered pairs carried)).name := by
  induction pairs generalizing seg carried with
  | nil => exact ⟨rfl, hname⟩
  | cons p pairs ih =>
    obtain ⟨k, v⟩ := p
    have hfour := strncmpEq_clip "name" sp.key k (n := 4) (by omega)
    have hvalue : seg.events sp (pairEvents (k, v)) =
        ({ seg with key := clip sp.key k } : Seg).remember sp v := by
      show ({ seg with key := clip sp.key k } : Seg).value sp v = _
      simp only [Seg.value, remember_sequence]
      exact if_neg hoff
    rw [List.flatMap_cons, Seg.events_append, hvalue, remembered, List.foldl_cons]
    unfold Seg.remember
    simp only [hfour]
    by_cases hnamed : strncmpEq "name" k 4 = true
    · simp only [if_pos hnamed]
      exact @ih { seg with key := clip sp.key k, name := clip sp.name v } _ hoff rfl
    · simp only [if_neg hnamed]
      exact @ih { seg with key := clip sp.key k } _ hoff hname

/-- The loader in front of some sections, and the loader that has read what counts so far. -/
structure Seg.Carries (sp : Spare) (on : Bool) (carried : Option CStr) (seg seg' : Seg) : Prop where
  lastName : seg.lastName = seg'.lastName
  peers : seg.peers = seg'.peers
  name : seg.name = (seg'.carry sp carried).name
  mode : seg.sequence = seqSpeer ↔ on = true
  counting : seg'.sequence = seqSpeer

/-- The name of a section decides what it is taken for. -/
theorem Seg.startSection_counts (hmode : seg.sequence = seqSpeer ↔ on = true) (s : Section) :
    (({ seg with key := clip sp.key s.name } : Seg).startSection.sequence = seqSpeer ↔
      s.counts on = true) := by
  have hfifteen := strncmpEq_clip "symmetric-peers" sp.key s.name (n := 15) (by omega)
  have hsixteen := strncmpEq_clip "assymetric-peers" sp.key s.name (n := 16) (by omega)
  unfold Seg.startSection Section.counts
  simp only [hfifteen, hsixteen]
  split
  · exact iff_of_true rfl rfl
  · split
    · exact iff_of_false (show seqApeer ≠ seqSpeer by decide) (by simp)
    · exact hmode

theorem Seg.startSection_eq (seg : Seg) :
    seg.startSection = { seg with sequence := seg.startSection.sequence } := by
  unfold Seg.startSection
  split
  · rfl
  · split <;> rfl

/-- The entries of a section that counts are read one after the other. -/
theorem Seg.events_entries (es : List Entry) :
    seg.events sp (es.flatMap Entry.events) = (es.map (Taken.mk none)).foldl (Seg.take sp) seg ∧
      (seg.AcceptsAll env sp (es.flatMap Entry.events) ↔
        seg.AcceptsTaken env sp (es.map (Taken.mk none))) := by
  induction es generalizing seg with
  | nil => exact ⟨rfl, Iff.rfl⟩
  | cons e es ih =>
    obtain ⟨hevents, hacc⟩ := @ih (seg.events sp e.events)
    rw [List.flatMap_cons, Seg.events_append, Seg.acceptsAll_append]
    exact ⟨hevents, and_congr Iff.rfl hacc⟩

/-- Behind a section that counts nothing is carried. -/
theorem Seg.Carries.refl (hseq : seg.sequence = seqSpeer) : seg.Carries sp true none seg :=
  ⟨rfl, rfl, rfl, iff_of_true hseq rfl, hseq⟩

/-- The start of a section. -/
theorem Seg.Carries.startSection (h : seg.Carries sp on carried seg') (s : Section) :
    ({ seg with key := clip sp.key s.name } : Seg).startSection.Carries sp (s.counts on) carried
      seg' := by
  have hcounts := Seg.startSection_counts sp h.mode s
  rw [Seg.startSection_eq] at hcounts ⊢
  exact ⟨h.lastName, h.peers, h.name, hcounts, h.counting⟩

/-- Entries that do not count. -/
theorem Seg.Carries.other_entries (h : seg.Carries sp false carried seg') (es : List Entry) :
    (seg.events sp (es.flatMap Entry.events)).Carries sp false
        (remembered (es.flatMap Entry.pairs) carried) seg' ∧
      seg.AcceptsAll env sp (es.flatMap Entry.events) := by
  have hoff : seg.sequence ≠ seqSpeer := fun hseq => Bool.false_ne_true (h.mode.mp hseq)
  obtain ⟨hpeers, hsequence, hacc⟩ := Seg.events_idle env sp hoff (entries_events_no_section es)
  have hpairs : es.flatMap Entry.events = (es.flatMap Entry.pairs).flatMap pairEvents :=
    (List.flatMap_assoc ..).symm
  obtain ⟨hlast, hname⟩ := Seg.events_off sp hoff (es.flatMap Entry.pairs) h.name
  rw [← hpairs] at hlast hname
  refine ⟨⟨hlast.trans h.lastName, hpeers.trans h.peers, hname, ?_, h.counting⟩, hacc⟩
  exact iff_of_false (by rw [hsequence]; exact hoff) Bool.false_ne_true

/-- Entries that count. The first one finds the name that the sections in front of it left. -/
theorem Seg.Carries.counting_entries (h : seg.Carries sp true carried seg') {es : List Entry}
    (hne : es ≠ []) :
    seg.events sp (es.flatMap Entry.events) = (takenEntries carried es).foldl (Seg.take sp) seg' ∧
      (seg.AcceptsAll env sp (es.flatMap Entry.events) ↔
        seg'.AcceptsTaken env sp (takenEntries carried es)) := by
  obtain ⟨e, es, rfl⟩ := List.exists_cons_of_ne_nil hne
  have hseq : seg.sequence = seqSpeer := h.mode.mpr rfl
  obtain ⟨hfirst, hacc⟩ := @Entry.events_congr env sp seg
    (seg'.carry sp (if e.named then none else carried)) e
    (by rw [hseq, Seg.carry_sequence, h.counting]) (by rw [h.lastName, Seg.carry_lastName])
    (by rw [h.peers, Seg.carry_peers]) (fun hnamed => by simp [h.name, hnamed])
  rw [List.flatMap_cons, Seg.events_append, Seg.acceptsAll_append, hfirst]
  exact ⟨(Seg.events_entries env sp es).1, and_congr hacc (Seg.events_entries env sp es).2⟩

/-- What the sections come to is what the entries that count come to. -/
theorem Seg.Carries.events (h : seg.Carries sp on carried seg') (ss : List Section) :
    (seg.events sp (ss.flatMap Section.events)).peers =
        ((taken on carried ss).foldl (Seg.take sp) seg').peers ∧
      (seg.AcceptsAll env sp (ss.flatMap Section.events) ↔
        seg'.AcceptsTaken env sp (taken on carried ss)) := by
  induction ss generalizing seg seg' on carried with
  | nil => exact ⟨h.peers, Iff.rfl⟩
  | cons s ss ih =>
    rw [List.flatMap_cons, Seg.events_append, Seg.acceptsAll_append]
    cases hindented : s.indented with
    | false =>
      have hevents : s.events = s.keys.map .key := by simp [Section.events, hindented]
      obtain ⟨⟨k, hk⟩, hacc⟩ := Seg.events_keys env sp seg s.keys
      have hnext : ({ seg with key := k } : Seg).Carries sp on carried seg' :=
        ⟨h.lastName, h.peers, h.name, h.mode, h.counting⟩
      obtain ⟨hpeers, haccs⟩ := ih hnext
      rw [hevents, hk]
      simp only [Lanes.taken, hindented, Bool.false_eq_true, if_false]
      exact ⟨hpeers, (and_iff_right hacc).trans haccs⟩
    | true =>
      have hevents : s.events =
          [.key s.name, .sectionStart] ++ s.entries.val.flatMap Entry.events := by
        simp [Section.events, hindented]
      have hheadAcc : seg.AcceptsAll env sp [.key s.name, .sectionStart] :=
        ⟨fun v hv => (by cases hv), fun v hv => (by cases hv), trivial⟩
      have hstart := h.startSection sp s
      rw [hevents, Seg.events_append, Seg.acceptsAll_append, and_iff_right hheadAcc]
      simp only [Lanes.taken, hindented, if_true]
      cases hon : s.counts on with
      | false =>
        rw [hon] at hstart
        obtain ⟨hnext, hacc⟩ := hstart.other_entries env sp s.entries.val
        obtain ⟨hrest, haccs⟩ := ih hnext
        exact ⟨hrest, (and_iff_right hacc).trans haccs⟩
      | true =>
        rw [hon] at hstart
        obtain ⟨hrun, hacc⟩ := hstart.counting_entries env sp s.entries.property
        have hsequence := (Seg.events_sequence sp (entries_events_no_section s.entries.val)).trans
          (hstart.mode.mpr rfl)
        obtain ⟨hrest, haccs⟩ := ih (Seg.Carries.refl sp hsequence)
        rw [if_pos rfl, Seg.acceptsTaken_append, List.foldl_append, ← hrun]
        exact ⟨hrest, and_congr hacc haccs⟩

/-- The peers of a configuration are those of the entries that count. -/
theorem Document.peers_eq_counted (d : Document) (seg : Seg) (hseq : seg.sequence ≠ seqSpeer) :
    (seg.events sp d.events).peers =
        ((counted d.sections).foldl (Seg.take sp) { seg with sequence := seqSpeer }).peers ∧
      (seg.AcceptsAll env sp d.events ↔
        ({ seg with sequence := seqSpeer } : Seg).AcceptsTaken env sp (counted d.sections)) := by
  obtain ⟨s, ss, hss⟩ := List.exists_cons_of_ne_nil d.nonempty
  obtain ⟨⟨k, hk⟩, hacc⟩ := Seg.events_keys env sp seg s.keys
  have hstart : ({ seg with key := k } : Seg).Carries sp false none
      { seg with sequence := seqSpeer } :=
    ⟨rfl, rfl, rfl, iff_of_false hseq Bool.false_ne_true, rfl⟩
  obtain ⟨hpeers, haccs⟩ := hstart.events env sp ss
  rw [Document.events, counted, hss, sectionsEvents, Seg.events_append,
    Seg.acceptsAll_append, hk]
  exact ⟨hpeers, (and_iff_right hacc).trans haccs⟩

/-! ## Sections of the list

Of the list of a longer configuration only this is used later: a section that is not indented adds
nothing, and an entry of `symmetric-peers` that starts with a name stands in the list as it is. -/

theorem taken_flat {s : Section} (hflat : s.indented = false) (xs ys : List Section) :
    taken on carried (xs ++ s :: ys) = taken on carried (xs ++ ys) := by
  induction xs generalizing on carried with
  | nil => simp [taken, hflat]
  | cons x xs ih => simp only [List.cons_append, taken, ih]

theorem takenEntries_split (carried : Option CStr) (es es' : List Entry) :
    ∃ ts, ∀ e : Entry, e.named = true →
      takenEntries carried (es ++ e :: es') = ts ++ ⟨none, e⟩ :: es'.map (Taken.mk none) := by
  cases es with
  | nil => exact ⟨[], fun e hnamed => by simp [takenEntries, hnamed]⟩
  | cons x es =>
    exact ⟨⟨if x.named then none else carried, x⟩ :: es.map (Taken.mk none), fun e _ => by
      simp [takenEntries]⟩

theorem taken_split (on : Bool) (carried : Option CStr) (xs ys : List Section)
    (es es' : List Entry) :
    ∃ ts us, ∀ e : Entry, e.named = true →
      taken on carried (xs ++ ⟨"symmetric-peers", true, es ++ e :: es', by simp⟩ :: ys) =
        ts ++ ⟨none, e⟩ :: us := by
  induction xs generalizing on carried with
  | nil =>
    obtain ⟨ts, hts⟩ := takenEntries_split carried es es'
    refine ⟨ts, es'.map (Taken.mk none) ++ taken true none ys, fun e hnamed => ?_⟩
    have hcounts : Section.counts ⟨"symmetric-peers", true, es ++ e :: es', by simp⟩ on = true :=
      if_pos (by decide : strncmpEq "symmetric-peers" "symmetric-peers" 15 = true)
    rw [List.nil_append, taken, if_pos rfl, if_pos hcounts, hts e hnamed, List.append_assoc,
      List.cons_append]
  | cons x xs ih =>
    cases hindented : x.indented with
    | false =>
      obtain ⟨ts, us, hts⟩ := ih on carried
      exact ⟨ts, us, fun e hnamed => by
        rw [List.cons_append, taken, if_neg (by simp [hindented]), hts e hnamed]⟩
    | true =>
      cases hcounts : x.counts on with
      | false =>
        obtain ⟨ts, us, hts⟩ := ih false (remembered (x.entries.val.flatMap Entry.pairs) carried)
        exact ⟨ts, us, fun e hnamed => by
          rw [List.cons_append, taken, if_pos hindented, if_neg (by simp [hcounts]),
            hts e hnamed]⟩
      | true =>
        obtain ⟨ts, us, hts⟩ := ih true none
        exact ⟨takenEntries carried x.entries.val ++ ts, us, fun e hnamed => by
          rw [List.cons_append, taken, if_pos hindented, if_pos hcounts, hts e hnamed,
            List.append_assoc]⟩

end Taken

end Lanes
