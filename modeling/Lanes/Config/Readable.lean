import Lanes.Config.Document

/-!
# Streams that the loops get through

A condition on the tokens of a file, in the terms of its format, under which the four loops of
`load_config` come to the end of the stream. Each loop leaves by one token only, so what matters is
that this token comes and that no branch swallows it:

* The outer loop leaves by `STREAM-END`. The token behind a `KEY` is never looked at, so it must not
  be that one.
* The loop over the first mapping, which the outer loop also enters at the mapping of any unindented
  entry, leaves by a `BLOCK-END`, again not one behind a `KEY`.
* The loops over a section and over the mapping of an entry know `KEY`, scalars, `VALUE`,
  `BLOCK-ENTRY` and `BLOCK-END`. Inside a mapping any other token stops them for good, so the
  mappings of a section have to be flat.

`Readable` states these conditions, `Readable.reading` is the result for the loops, and
`Document.readable` says that every configuration of the format meets them.
-/

namespace Lanes

/-! ## The condition

A pair of a flat mapping may break off: `key:` without a value, a bare key, or a lone `?`. The
scanner delivers what is there. -/

/-- A pair of scalars, with the number of tokens that the scanner delivers behind its `KEY`. -/
structure FlatPair where
  key : CStr
  value : CStr
  given : Nat

def FlatPair.tokens (p : FlatPair) : List Token :=
  .key :: [.scalar p.key, .value, .scalar p.value].take p.given

/-- What a section holds between two `BLOCK-ENTRY`. -/
inductive Item where
  /-- Anything without a block mapping and without a `BLOCK-END`. -/
  | plain (ts : List Token) (flat : ∀ t ∈ ts, t ≠ .blockMappingStart ∧ t ≠ .blockEnd)
  /-- A flat mapping; it is open when its last value is an unindented list, the items of which
  follow. -/
  | mapping (pairs : List FlatPair) (closed : Bool)

def Item.tokens : Item → List Token
  | .plain ts _ => ts
  | .mapping pairs closed =>
    .blockMappingStart :: (pairs.flatMap FlatPair.tokens ++ if closed then [.blockEnd] else [])

/-- The section may end behind the item. -/
def Item.Ends : Item → Prop
  | .plain _ _ => True
  | .mapping _ closed => closed = true

/-- The tokens behind the first `BLOCK-ENTRY` of a section, up to the `BLOCK-END` behind its last
item. -/
def sectionBody (items : List Item) (last : Item) : List Token :=
  items.flatMap (fun i => i.tokens ++ [.blockEntry]) ++ (last.tokens ++ [.blockEnd])

/-- The tokens `ts` and then `last` lead every loop to the token by which it leaves. -/
structure Readable (last : Token) (ts : List Token) : Prop where
  /-- The last token does not stand behind a `KEY`. -/
  keyed : ts.getLast? ≠ some .key
  /-- Behind each `BLOCK-MAPPING-START` comes a `BLOCK-END` that does not stand behind a `KEY`. -/
  mappings : ∀ rest, .blockMappingStart :: rest <:+ ts ++ [last] →
    ∃ before after, rest = before ++ .blockEnd :: after ∧ before.getLast? ≠ some .key
  /-- The items of each section are flat, up to a `BLOCK-END`. -/
  sections : ∀ a rest,
    .key :: a :: .value :: .blockSequenceStart :: .blockEntry :: rest <:+ ts ++ [last] →
    ∃ items item after, item.Ends ∧ rest = sectionBody items item ++ after

/-! ## Leaving the inner loops

The inner loops may leave before the token that was meant for them: an entry whose last value is
missing takes the `BLOCK-END` of its mapping for the end of the section. The rest of the section is
then read by the outer loop. -/

/-- The tokens, or some of them from the first on, lead the loops from `pos` to `stage`. -/
def Leads (pos : Pos) (ts : List Token) (stage : Stage) : Prop :=
  ∃ ts₁ ts₂ evs, ts = ts₁ ++ ts₂ ∧ Reading pos ts₁ evs stage

section Leads

variable {pos pos' : Pos} {ts rest : List Token} {evs : List Event} {stage : Stage}
  {t d last : Token}

theorem Leads.of_reads {all : List Token} (h : Reads pos ts evs stage) (hall : all = ts ++ rest) :
    Leads pos all stage := ⟨ts, rest, evs, hall, .one h⟩

theorem Leads.step {all : List Token} (h : Reads pos ts evs (.head pos'))
    (hrest : Leads pos' rest stage) (hall : all = ts ++ rest) : Leads pos all stage := by
  obtain ⟨ts₁, ts₂, evs', rfl, hread⟩ := hrest
  exact ⟨ts ++ ts₁, ts₂, evs ++ evs', hall.trans (List.append_assoc ..).symm, .step h hread⟩

/-- A part at the end of a list has the last token of the list, if it has one. -/
theorem getLast?_ne_of_append {xs : List Token} (h : (xs ++ ts).getLast? ≠ some t) :
    ts.getLast? ≠ some t := by
  intro hlast
  rw [List.getLast?_append, hlast] at h
  exact h rfl

/-- The loop over the first mapping leaves at a `BLOCK-END` that it looks at. -/
theorem leads_mapping (before : List Token) (h : before.getLast? ≠ some .key) :
    Leads .mapping (before ++ [.blockEnd]) (.head .stream) := by
  -- an iteration reads up to four tokens, so the induction is on the length
  induction hn : before.length using Nat.strong_induction_on generalizing before with
  | _ n ih =>
    have hgoOn : ∀ (ts : List Token) {rest : List Token} {evs : List Event} {t : Token},
        (ts ++ rest).length = n → (ts ++ rest).getLast? ≠ some .key → ts ≠ [] →
        Reads .mapping ts evs (afterMapping t) →
        Leads .mapping (ts ++ (rest ++ [.blockEnd])) (.head .stream) := by
      intro ts rest evs t hlength hlast hne hreads
      by_cases hend : t = .blockEnd
      · rw [afterMapping, if_pos hend] at hreads
        exact .of_reads hreads rfl
      · rw [afterMapping, if_neg hend] at hreads
        have hlt : rest.length < n := by
          rw [List.length_append] at hlength
          have := List.length_pos_of_ne_nil hne
          omega
        exact .step hreads (ih _ hlt rest (getLast?_ne_of_append hlast) rfl) rfl
    rcases before with _ | ⟨t, rest⟩
    · exact .of_reads (.mappingOther (t := .blockEnd) (by simp)) rfl
    by_cases hkey : t = .key
    swap
    · exact hgoOn [t] hn h (by simp) (.mappingOther hkey)
    subst hkey
    -- behind a `KEY` there is a token that the loop does not look at
    rcases rest with _ | ⟨a, _ | ⟨b, rest⟩⟩
    · exact absurd rfl h
    · exact .of_reads (.mappingKey (a := a) (b := .blockEnd) (by simp)) rfl
    by_cases hvalue : b = .value
    swap
    · exact hgoOn [.key, a, b] hn h (by simp) (.mappingKey hvalue)
    subst hvalue
    rcases rest with _ | ⟨c, rest⟩
    · exact .of_reads (.mappingValue (a := a) (c := .blockEnd)) rfl
    · exact hgoOn [.key, a, .value, c] hn h (by simp) .mappingValue

/-- Behind a mapping the loop over the section goes on, or ends. -/
theorem leads_entryEnd (hd : d = .blockEntry ∨ d = .blockEnd)
    (hrest : d = .blockEntry → Leads .sequence rest (.head .stream)) :
    Leads (.entry d) rest (.head .stream) := by
  have hreads : Reads (.entry d) [] [] (afterSequence d) := .entryEnd hd
  rcases hd with rfl | rfl
  · exact .step hreads (hrest rfl) rfl
  · exact .of_reads hreads rfl

/-- A pair of a flat mapping is read whatever is missing of it. Behind a whole pair a `BLOCK-END` is
skipped, behind a broken one it ends the section. -/
theorem leads_pair (p : FlatPair) (hvalue : t ≠ .value) (hscalar : ∀ v, t ≠ .scalar v)
    (hnext : Leads (.entry t) rest (.head .stream))
    (hend : t = .blockEnd → ∃ d ts, rest = d :: ts ∧ Leads (.entry d) ts (.head .stream)) :
    Leads (.entry .key) ([.scalar p.key, .value, .scalar p.value].take p.given ++ t :: rest)
      (.head .stream) := by
  match p.given with
  | 0 => exact .step (.entryKey hscalar) hnext rfl
  | 1 => exact .step (.entryNoValue (k := p.key) hvalue) hnext rfl
  | 2 => exact .step (.entryNoScalar (k := p.key) hscalar) hnext rfl
  | n + 3 =>
    have hall : [Token.scalar p.key, .value, .scalar p.value].take (n + 3) =
        [.scalar p.key, .value, .scalar p.value] := List.take_of_length_le (by simp)
    rw [hall]
    by_cases ht : t = .blockEnd
    · obtain ⟨d, ts, rfl, hd⟩ := hend ht
      subst ht
      exact .step (.lastPair (k := p.key) (v := p.value)) hd rfl
    · exact .step (.pair (k := p.key) (v := p.value) ht) hnext rfl

/-- The pairs of a flat mapping, and the token behind it. -/
theorem leads_pairs {closed : Bool} (hd : d = .blockEntry ∨ d = .blockEnd)
    (hclosed : closed = true ∨ d = .blockEntry)
    (hrest : d = .blockEntry → Leads .sequence rest (.head .stream)) (p : FlatPair)
    (pairs : List FlatPair) :
    Leads (.entry .key) ([.scalar p.key, .value, .scalar p.value].take p.given ++
      (pairs.flatMap FlatPair.tokens ++ ((if closed then [.blockEnd] else []) ++ d :: rest)))
      (.head .stream) := by
  induction pairs generalizing p with
  | nil =>
    cases closed with
    | true =>
      exact leads_pair p (by simp) (by simp) (leads_entryEnd (Or.inr rfl) (by simp))
        fun _ => ⟨d, rest, rfl, leads_entryEnd hd hrest⟩
    | false =>
      have hentry : d = .blockEntry := hclosed.resolve_left (by simp)
      subst hentry
      exact leads_pair p (by simp) (by simp) (leads_entryEnd (Or.inl rfl) hrest) (by simp)
  | cons q pairs ih =>
    rw [List.flatMap_cons, FlatPair.tokens, List.cons_append, List.cons_append, List.append_assoc]
    exact leads_pair p (by simp) (by simp) (ih q) (by simp)

/-- The loop over a section gets through an item and the token behind it. -/
theorem leads_item (i : Item) (hd : d = .blockEntry ∨ (d = .blockEnd ∧ i.Ends))
    (hrest : d = .blockEntry → Leads .sequence rest (.head .stream)) :
    Leads .sequence (i.tokens ++ d :: rest) (.head .stream) := by
  have hd' : d = .blockEntry ∨ d = .blockEnd := hd.imp_right And.left
  cases i with
  | plain ts flat =>
    show Leads .sequence (ts ++ d :: rest) (.head .stream)
    induction ts with
    | nil =>
      have hreads : Reads .sequence [d] [] (afterSequence d) := .sequenceOther (by
        rcases hd' with rfl | rfl <;> simp)
      rcases hd' with rfl | rfl
      · exact .step hreads (hrest rfl) rfl
      · exact .of_reads hreads rfl
    | cons t ts ih =>
      obtain ⟨hmap, hend⟩ := flat t (List.mem_cons_self ..)
      have hreads := Reads.sequenceOther hmap
      rw [afterSequence, if_neg hend] at hreads
      exact .step hreads (ih (fun u hu => flat u (List.mem_cons_of_mem _ hu))
        (hd.imp_right fun h => ⟨h.1, trivial⟩)) rfl
  | mapping pairs closed =>
    have hclosed : closed = true ∨ d = .blockEntry := hd.symm.imp_left And.right
    show Leads .sequence (.blockMappingStart :: (pairs.flatMap FlatPair.tokens ++
      if closed then [.blockEnd] else []) ++ d :: rest) (.head .stream)
    rw [List.cons_append, List.append_assoc]
    cases pairs with
    | nil =>
      -- without a pair the first token is already the end
      cases closed with
      | true =>
        exact .step (.entryStart (t := .blockEnd)) (leads_entryEnd (Or.inr rfl) (by simp)) rfl
      | false =>
        have hentry : d = .blockEntry := hclosed.resolve_left (by simp)
        subst hentry
        exact .step (.entryStart (t := .blockEntry)) (leads_entryEnd (Or.inl rfl) hrest) rfl
    | cons p pairs =>
      rw [List.flatMap_cons, FlatPair.tokens, List.cons_append, List.cons_append,
        List.append_assoc]
      exact .step (.entryStart (t := .key)) (leads_pairs hd' hclosed hrest p pairs) rfl

theorem leads_section (items : List Item) {item : Item} (hends : item.Ends) :
    Leads .sequence (sectionBody items item) (.head .stream) := by
  unfold sectionBody
  induction items with
  | nil => exact leads_item item (Or.inr ⟨rfl, hends⟩) (by simp)
  | cons i items ih =>
    rw [List.flatMap_cons, List.append_assoc, List.append_assoc]
    exact leads_item i (Or.inl rfl) fun _ => ih

end Leads

/-! ## The outer loop

By strong induction on the length of the stream: whatever the loop meets first, it comes back to its
head with a shorter stream that is still readable, or it is at the last token.
-/

section Readable

variable {last : Token} {ts : List Token}

/-- The conditions speak of what comes later, so they hold of every end of a readable stream. -/
theorem Readable.suffix {xs : List Token} (h : Readable last (xs ++ ts)) : Readable last ts := by
  have hsuffix : ts ++ [last] <:+ xs ++ ts ++ [last] := ⟨xs, (List.append_assoc ..).symm⟩
  exact
    { keyed := getLast?_ne_of_append h.keyed
      mappings := fun rest hrest => h.mappings rest (hrest.trans hsuffix)
      sections := fun a rest hrest => h.sections a rest (hrest.trans hsuffix) }

/-- A readable stream leads the outer loop to its last token: to the end of the loops if that is
`STREAM-END`, and back to the head of the loop if it is the `BLOCK-END` of a section. -/
theorem Readable.reading (hlast : last = .streamEnd ∨ last = .blockEnd) (hin : .streamEnd ∉ ts)
    (h : Readable last ts) : ∃ evs, Reading .stream (ts ++ [last]) evs (afterStream last) := by
  induction hn : ts.length using Nat.strong_induction_on generalizing ts with
  | _ n ih =>
    subst hn
    -- back at the head of the loop, with the rest of the stream in front of it
    have hgoOn : ∀ (xs rest : List Token) {evs : List Event}, ts ++ [last] = xs ++ rest →
        xs ≠ [] → Reading .stream xs evs (.head .stream) → (rest = [] → last = .blockEnd) →
        ∃ evs, Reading .stream (ts ++ [last]) evs (afterStream last) := by
      intro xs rest evs hsplit hne hread hend
      rcases List.eq_nil_or_concat rest with rfl | ⟨ts', l, rfl⟩
      · rw [hsplit, List.append_nil, hend rfl]
        exact ⟨evs, hread⟩
      · rw [List.concat_eq_append, ← List.append_assoc] at hsplit
        obtain ⟨rfl, hl⟩ := List.append_inj' hsplit rfl
        have hlt : ts'.length < (xs ++ ts').length := by
          rw [List.length_append]
          have := List.length_pos_of_ne_nil hne
          omega
        obtain ⟨evs', hrest⟩ := ih _ hlt
          (fun hmem => hin (List.mem_append_right _ hmem)) h.suffix rfl
        rw [List.append_assoc]
        exact ⟨evs ++ evs', hread.trans hrest⟩
    -- an iteration that ends with a token it looks at
    have htested : ∀ (xs : List Token) {rest : List Token} {evs : List Event} {b : Token},
        ts ++ [last] = (xs ++ [b]) ++ rest → Reads .stream (xs ++ [b]) evs (afterStream b) →
        ∃ evs, Reading .stream (ts ++ [last]) evs (afterStream last) := by
      intro xs rest evs b hsplit hreads
      rcases List.eq_nil_or_concat rest with rfl | ⟨ts', l, rfl⟩
      · rw [List.append_nil] at hsplit
        obtain ⟨rfl, hb⟩ := List.append_inj' hsplit rfl
        obtain rfl := List.head_eq_of_cons_eq hb
        exact ⟨evs, .one hreads⟩
      · have hmem : b ∈ ts := by
          rw [List.concat_eq_append, ← List.append_assoc] at hsplit
          obtain ⟨rfl, -⟩ := List.append_inj' hsplit rfl
          simp
        have hb : b ≠ .streamEnd := fun he => hin (he ▸ hmem)
        have hhead := hreads
        rw [afterStream, if_neg hb] at hhead
        exact hgoOn _ _ hsplit (by simp) (.one hhead) (by simp)
    -- an inner loop that leaves in front of `after`
    have hinner : ∀ (xs body after : List Token) {evs : List Event} {pos : Pos},
        ts ++ [last] = xs ++ (body ++ .blockEnd :: after) → Reads .stream xs evs (.head pos) →
        xs ≠ [] → Leads pos (body ++ [.blockEnd]) (.head .stream) →
        ∃ evs, Reading .stream (ts ++ [last]) evs (afterStream last) := by
      intro xs body after evs pos hsplit hreads hne hleads
      obtain ⟨ts₁, ts₂, evs', hbody, hread⟩ := hleads
      refine hgoOn (xs ++ ts₁) (ts₂ ++ after) ?_ (by simp [hne])
        (.step hreads hread) fun hnil => ?_
      · rw [hsplit, List.append_cons, hbody]
        simp only [List.append_assoc]
      · rw [(List.append_eq_nil_iff.mp hnil).2, ← List.append_assoc] at hsplit
        exact List.head_eq_of_cons_eq (List.append_inj' hsplit rfl).2
    have hlast' : ∀ (xs : List Token) {t : Token}, ts ++ [last] = xs ++ [t] → last = t :=
      fun _ _ hT => List.head_eq_of_cons_eq (List.append_inj' hT rfl).2
    obtain ⟨tokens, hT⟩ : ∃ tokens, ts ++ [last] = tokens := ⟨_, rfl⟩
    rcases tokens with _ | ⟨t, rest⟩
    · simp at hT
    by_cases hmap : t = .blockMappingStart
    · subst hmap
      obtain ⟨before, after, rfl, hbefore⟩ := h.mappings rest (hT ▸ List.suffix_rfl)
      exact hinner [.blockMappingStart] before after hT .mappingStart (by simp)
        (leads_mapping before hbefore)
    by_cases hkey : t = .key
    swap
    · exact htested [] hT (.other hmap hkey)
    subst hkey
    -- the last token of the stream is none of those inside an iteration
    rcases rest with _ | ⟨a, _ | ⟨b, rest⟩⟩
    · rcases hlast with rfl | rfl <;> cases hlast' [] hT
    · have hsplit : ts ++ [last] = [.key] ++ [a] := hT
      exact absurd (congrArg List.getLast? (List.append_inj' hsplit rfl).1) h.keyed
    by_cases hvalue : b = .value
    swap
    · exact htested [.key, a] hT (.keyOnly hvalue)
    subst hvalue
    rcases rest with _ | ⟨c, rest⟩
    · rcases hlast with rfl | rfl <;> cases hlast' [.key, a] hT
    by_cases hseq : c = .blockSequenceStart
    swap
    · exact htested [.key, a, .value] hT (.keyValue hseq)
    subst hseq
    rcases rest with _ | ⟨d, rest⟩
    · rcases hlast with rfl | rfl <;> cases hlast' [.key, a, .value] hT
    by_cases hentry : d = .blockEntry
    swap
    · exact htested [.key, a, .value, .blockSequenceStart] hT (.emptySection hentry)
    subst hentry
    -- a section: its items lead back to the head of the loop
    obtain ⟨items, item, after, hends, rfl⟩ := h.sections a rest (hT ▸ List.suffix_rfl)
    refine hinner [.key, a, .value, .blockSequenceStart, .blockEntry]
      (items.flatMap (fun i => i.tokens ++ [.blockEntry]) ++ item.tokens) after ?_ .entries
      (by simp) ?_
    · rw [hT, sectionBody]
      simp
    · rw [List.append_assoc]
      exact leads_section items hends

end Readable

/-! ## Configurations

What a configuration has of the condition: its sections are sequences of mappings of whole pairs,
and its last block ends behind a `BLOCK-END`. -/

/-- An entry as an item. -/
def Entry.item (e : Entry) : Item := .mapping (e.pairs.map fun p => ⟨p.1, p.2, 3⟩) true

@[simp] theorem Entry.item_tokens (e : Entry) : e.item.tokens = e.body := by
  simp only [Entry.item, Item.tokens, Entry.body, List.flatMap_map, if_true]
  rfl

/-- The entries of a section are its items. -/
theorem entries_body (e : Entry) (es : List Entry) :
    ∃ items item, item.Ends ∧ e.body ++ (es.flatMap Entry.tokens ++ [.blockEnd]) =
      sectionBody items item := by
  induction es generalizing e with
  | nil => exact ⟨[], e.item, rfl, by simp [sectionBody]⟩
  | cons e' es ih =>
    obtain ⟨items, item, hends, hbody⟩ := ih e'
    refine ⟨e.item :: items, item, hends, ?_⟩
    have hcons : sectionBody (e.item :: items) item =
        e.body ++ .blockEntry :: sectionBody items item := by simp [sectionBody]
    rw [hcons, ← hbody]
    simp [Entry.tokens]

section Configuration

variable {ts rest tail : List Token} {t : Token}

theorem Entry.no_sequence (e : Entry) : .blockSequenceStart ∉ e.tokens := by
  simp [Entry.tokens, Entry.body, pairTokens]

/-- A suffix that starts with a token found only in the second of two parts is one of that part. -/
theorem suffix_of_notMem {xs : List Token} (h : t :: rest <:+ xs ++ ts) (ht : t ∉ xs) :
    t :: rest <:+ ts := by
  rcases List.suffix_or_suffix_of_suffix h (List.suffix_append ..) with hsuffix | ⟨front, hfront⟩
  · exact hsuffix
  · cases front with
    | nil => exact hfront ▸ List.suffix_rfl
    | cons u front =>
      obtain ⟨rfl, rfl⟩ := List.cons.inj hfront
      have hends : u :: front ++ ts <:+ xs ++ ts := h
      have hin : u :: front <:+ xs := List.suffix_append_self_iff.mp hends
      exact absurd (hin.subset (List.mem_cons_self ..)) ht

/-- Behind the `BLOCK-SEQUENCE-START` of a section stand its entries. -/
theorem Section.suffix_sequence {s : Section} (h : .blockSequenceStart :: rest <:+ s.tokens) :
    rest = s.entries.val.flatMap Entry.tokens ++ [.blockEnd] := by
  have hes : .blockSequenceStart ∉ s.entries.val.flatMap Entry.tokens := by
    rw [List.mem_flatMap]
    rintro ⟨e, -, he⟩
    exact e.no_sequence he
  cases hindented : s.indented with
  | false =>
    have hmem := h.subset (List.mem_cons_self ..)
    simp [Section.tokens, hindented, hes] at hmem
  | true =>
    obtain ⟨front, hfront⟩ := h
    have htokens : s.tokens = [.key, .scalar s.name, .value] ++
        .blockSequenceStart :: (s.entries.val.flatMap Entry.tokens ++ [.blockEnd]) := by
      simp [Section.tokens, hindented]
    rw [htokens] at hfront
    exact ((List.append_cons_inj_of_notMem (by simp) (by simp [hes])).mp hfront.symm).2.2.symm

/-- The same in a list of sections. -/
theorem sections_suffix_sequence {sections : List Section}
    (h : .blockSequenceStart :: rest <:+ sections.flatMap Section.tokens ++ tail)
    (htail : .blockSequenceStart ∉ tail) :
    ∃ s ∈ sections, ∃ after, rest = s.entries.val.flatMap Entry.tokens ++ .blockEnd :: after := by
  induction sections with
  | nil => exact absurd (h.subset (List.mem_cons_self ..)) htail
  | cons s ss ih =>
    rw [List.flatMap_cons, List.append_assoc] at h
    have hlater : .blockSequenceStart :: rest <:+ ss.flatMap Section.tokens ++ tail →
        ∃ s' ∈ s :: ss, ∃ after,
          rest = s'.entries.val.flatMap Entry.tokens ++ .blockEnd :: after := fun hsuffix => by
      obtain ⟨s', hs', hrest⟩ := ih hsuffix
      exact ⟨s', List.mem_cons_of_mem _ hs', hrest⟩
    rcases List.suffix_or_suffix_of_suffix h (List.suffix_append ..) with hsuffix | ⟨front, hfront⟩
    · exact hlater hsuffix
    · cases front with
      | nil => exact hlater (hfront ▸ List.suffix_rfl)
      | cons t front =>
        obtain ⟨rfl, rfl⟩ := List.cons.inj hfront
        have hends : .blockSequenceStart :: front ++ (ss.flatMap Section.tokens ++ tail) <:+
            s.tokens ++ (ss.flatMap Section.tokens ++ tail) := h
        have hs : .blockSequenceStart :: front <:+ s.tokens :=
          List.suffix_append_self_iff.mp hends
        refine ⟨s, List.mem_cons_self .., ss.flatMap Section.tokens ++ tail, ?_⟩
        show front ++ _ = _
        rw [Section.suffix_sequence hs]
        simp

/-- A section ends behind a `BLOCK-END`. -/
theorem Section.tokens_concat (s : Section) : ∃ ts, s.tokens = ts ++ [.blockEnd] := by
  obtain ⟨name, indented, ⟨es, hne⟩⟩ := s
  obtain ⟨es, e, rfl⟩ := (List.eq_nil_or_concat es).resolve_left hne
  cases indented with
  | true =>
    refine ⟨[.key, .scalar name, .value] ++
      ([.blockSequenceStart] ++ (es.concat e).flatMap Entry.tokens), ?_⟩
    simp [Section.tokens]
  | false =>
    refine ⟨[.key, .scalar name, .value] ++ (es.flatMap Entry.tokens ++
      .blockEntry :: .blockMappingStart :: e.pairs.flatMap pairTokens), ?_⟩
    simp [Section.tokens, Entry.tokens, Entry.body]

theorem Document.front_getLast? (d : Document) : d.front.getLast? = some .blockEnd := by
  obtain ⟨heading, -, sections, hne, -, -⟩ := d
  obtain ⟨ss, s, rfl⟩ := (List.eq_nil_or_concat sections).resolve_left hne
  obtain ⟨ts, hts⟩ := s.tokens_concat
  have hfront : Token.streamStart :: (heading ++ .blockMappingStart ::
      (ss.concat s).flatMap Section.tokens) =
      (.streamStart :: (heading ++ .blockMappingStart :: (ss.flatMap Section.tokens ++ ts))) ++
        [.blockEnd] := by
    simp [hts]
  show (Token.streamStart :: _).getLast? = _
  rw [hfront, List.getLast?_concat]

/-- **Configurations are readable.** -/
theorem Document.readable (d : Document) : Readable .streamEnd d.tokens := by
  have hsplit : d.tokens ++ [.streamEnd] = d.front ++ .blockEnd :: (d.trailer ++ [.streamEnd]) := by
    simp [Document.tokens]
  have htail : ∀ t, ¬ t.Marker → t ≠ .blockEnd → t ≠ .streamEnd →
      t ∉ Token.blockEnd :: (d.trailer ++ [.streamEnd]) := by
    intro t hmarker hend hstream hmem
    simp only [List.mem_cons, List.mem_append, List.not_mem_nil, or_false] at hmem
    rcases hmem with he | ht | he
    · exact hend he
    · exact hmarker (d.trailed t ht)
    · exact hstream he
  refine ⟨fun hlast => ?_, fun rest hrest => ?_, fun a rest hrest => ?_⟩
  · rw [Document.tokens, List.getLast?_append] at hlast
    cases htrail : (Token.blockEnd :: d.trailer).getLast? with
    | none => simp at htrail
    | some t =>
      rw [htrail] at hlast
      obtain rfl : t = .key := Option.some.inj hlast
      refine htail .key (by simp [Token.Marker]) (by simp) (by simp) ?_
      exact List.mem_append_left [.streamEnd] (List.mem_of_getLast? htrail)
  · -- the `BLOCK-END` behind the last section will do for every mapping
    rw [hsplit] at hrest
    rcases List.suffix_or_suffix_of_suffix hrest (List.suffix_append ..) with hin | ⟨pre, hpre⟩
    · exact absurd (hin.subset (List.mem_cons_self ..))
        (htail _ (by simp [Token.Marker]) (by simp) (by simp))
    · cases pre with
      | nil => cases hpre
      | cons t before =>
        obtain ⟨rfl, rfl⟩ := List.cons.inj hpre
        have hends : (.blockMappingStart :: before) ++ .blockEnd :: (d.trailer ++ [.streamEnd]) <:+
            d.front ++ .blockEnd :: (d.trailer ++ [.streamEnd]) := hrest
        obtain ⟨front, hfront⟩ : .blockMappingStart :: before <:+ d.front :=
          List.suffix_append_self_iff.mp hends
        have hlast := d.front_getLast?
        rw [← hfront, List.append_cons] at hlast
        refine ⟨before, _, rfl, @getLast?_ne_of_append _ _ (front ++ [.blockMappingStart]) ?_⟩
        rw [hlast]
        simp
  · have hstart : d.tokens ++ [.streamEnd] =
        (.streamStart :: (d.heading ++ [.blockMappingStart])) ++
          (d.sections.flatMap Section.tokens ++ .blockEnd :: (d.trailer ++ [.streamEnd])) := by
      simp [Document.tokens, Document.front]
    rw [hstart] at hrest
    have hseq : .blockSequenceStart :: .blockEntry :: rest <:+
        .key :: a :: .value :: .blockSequenceStart :: .blockEntry :: rest :=
      ⟨[.key, a, .value], rfl⟩
    have hheading : Token.blockSequenceStart ∉
        Token.streamStart :: (d.heading ++ [.blockMappingStart]) := by
      intro hmem
      have hmarker := d.headed .blockSequenceStart (by simpa using hmem)
      simp [Token.Marker] at hmarker
    obtain ⟨s, -, after, hentries⟩ := sections_suffix_sequence
      (suffix_of_notMem (hseq.trans hrest) hheading)
      (htail _ (by simp [Token.Marker]) (by simp) (by simp))
    obtain ⟨name, indented, ⟨es, hne⟩⟩ := s
    obtain ⟨e, es, rfl⟩ := List.exists_cons_of_ne_nil hne
    obtain ⟨items, item, hends, hbody⟩ := entries_body e es
    refine ⟨items, item, after, hends, ?_⟩
    rw [← hbody]
    simpa [Entry.tokens] using hentries

end Configuration

end Lanes
