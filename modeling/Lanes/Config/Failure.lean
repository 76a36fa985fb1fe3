import Lanes.Config.Readable
import Lanes.Config.Sample

/-!
# How `load_config` ends

Nothing in the loops looks at scanner errors, so a file is loaded, or refused by `die`, only when
the outer loop gets to the end of the stream or a refused value comes first. In every other case
one of the loops never ends.

The exact set of these files is that of the loops themselves (`reportsFailure_iff_reading`). The
result is about the files a user can tell by looking at them: those that were scanned to their end
and are readable in the sense of `Readable`, and those that may be broken anywhere behind a pair
that is refused (`reportsFailure_of_tokens`).
-/

namespace Lanes

/-! ## Ends of the loops

In both directions by the readings of `Config.Reading`: a run that ends has read one, and a reading
is run by enough iterations.
-/

/-- The status with which `load_config` returns or the process ends. -/
def Outcome.status : Outcome → Nat
  | .returned _ => 0
  | .died => 1

/-- The loops end, and the status is 0 only for a file that could be opened and whose stream was
scanned to its end. -/
def ReportsFailure (env : Env) (file : ConfigFile) (ld : Loader) : Prop :=
  ∃ outcome, LoadConfig env file ld outcome ∧
    (outcome.status = 0 → file.opened = true ∧ file.stream.ended = true)

/-- The tokens lead the outer loop to the end of the stream. -/
def ReadToEnd (tokens : List Token) : Prop :=
  ∃ ts evs, ts <+: tokens ∧ Reading .stream ts evs .finished

/-- The tokens lead the loops to the value of a pair that is refused. -/
def MeetsRefused (env : Env) (ld : Loader) (tokens : List Token) : Prop :=
  ∃ ts evs, ts <+: tokens ∧ Reading .stream ts evs .cut ∧ ¬ ld.seg.AcceptsAll env ld.spare evs

/-- The pairs that end the process are those that the abstract loader refuses. -/
theorem Loader.Start.events_none {env : Env} {ld : Loader} (h₀ : ld.Start) {evs : List Event} :
    ld.events env evs = none ↔ ¬ ld.seg.AcceptsAll env ld.spare evs := by
  rw [← h₀.follows.events_isSome, ← Option.isSome_iff_exists, Option.not_isSome_iff_eq_none]

/-- `load_config` ends and reports failure exactly for the files that can be opened and whose
tokens lead its loops to the end of the stream or to a refused value. -/
theorem reportsFailure_iff_reading (env : Env) (file : ConfigFile) {ld : Loader} (h₀ : ld.Start) :
    ReportsFailure env file ld ↔ file.opened = true ∧
      (ReadToEnd file.stream.delivered ∨ MeetsRefused env ld file.stream.delivered) := by
  constructor
  · rintro ⟨outcome, ⟨hopen, n, hrun⟩, -⟩
    refine ⟨hopen, ?_⟩
    obtain ⟨ts, evs, hpre, ⟨hread, -⟩ | ⟨hread, hnone, -⟩⟩ := reading_of_run hrun
    · exact Or.inl ⟨ts, evs, hpre, hread⟩
    · exact Or.inr ⟨ts, evs, hpre, hread, h₀.events_none.mp hnone⟩
  · rintro ⟨hopen, ⟨ts, evs, ⟨rest, hrest⟩, hread⟩ | ⟨ts, evs, ⟨rest, hrest⟩, hread, hrefused⟩⟩
    · obtain ⟨n, hrun⟩ := Reading.run env rest ld hread (Or.inl rfl)
      rw [hrest] at hrun
      refine ⟨_, ⟨hopen, n, hrun⟩, fun _ => ⟨hopen, TokenStream.ended_of_mem ?_⟩⟩
      rw [← hrest]
      exact List.mem_append_left _ hread.streamEnd_mem
    · have hnone := h₀.events_none.mpr hrefused
      obtain ⟨n, hrun⟩ := Reading.run env rest ld hread (Or.inr hnone)
      rw [hrest, hnone] at hrun
      exact ⟨.died, ⟨hopen, n, hrun⟩, fun h => by cases h⟩

/-! ## Refused pairs

`die (1, …)` ends the process at the value of a refused pair, so the tokens behind it do not matter.
A pair that stands behind the `name` of its entry is one that the loader applies. -/

/-- The front of a file that breaks off in an entry of the symmetric peers, in front of a pair. -/
structure OpenEntry where
  /-- What stands in front of the section, but for the `BLOCK-END` that ends it. -/
  before : List Token
  readable : Readable .blockEnd before
  key : CStr
  symmetric : strncmpEq "symmetric-peers" key 15 = true
  /-- The entries of the section in front of the open one. -/
  entries : List Entry
  name : CStr
  short : name.length < 255
  /-- The pairs of the open entry behind its name. -/
  pairs : List (CStr × CStr)
  plain : ∀ p ∈ pairs, PlainKey p.1

namespace OpenEntry

/-- The pairs of the open entry. -/
def allPairs (o : OpenEntry) : List (CStr × CStr) := ("name", o.name) :: o.pairs

def tokens (o : OpenEntry) : List Token :=
  o.before ++ [.blockEnd] ++ ([.key, .scalar o.key, .value, .blockSequenceStart, .blockEntry] ++
    (o.entries.flatMap (fun e => e.body ++ [.blockEntry]) ++
      .blockMappingStart :: o.allPairs.flatMap pairTokens))

/-- The events of the section, up to the next pair. -/
def events (o : OpenEntry) : List Event :=
  [.key o.key, .sectionStart] ++ (o.entries.flatMap Entry.events ++ o.allPairs.flatMap pairEvents)

/-- The tokens in front of a pair lead the loops into the entry. -/
theorem reading (o : OpenEntry) (hin : .streamEnd ∉ o.before) (k v : CStr) :
    ∃ evs, Reading .stream (o.tokens ++ pairTokens (k, v))
      (evs ++ (o.events ++ pairEvents (k, v))) .cut := by
  obtain ⟨evs, hbefore⟩ := o.readable.reading (Or.inr rfl) hin
  have hsection : Reading .stream [.key, .scalar o.key, .value, .blockSequenceStart, .blockEntry]
      [.key o.key, .sectionStart] (.head .sequence) := .one (.entries (a := .scalar o.key))
  have hentries := hsection.flatMap fun e (_ : e ∈ o.entries) =>
    e.reading_body (d := .blockEntry) (Or.inl rfl)
  -- each pair is read together with the `KEY` of the next one
  have hpairs := (hentries.trans (.one (.entryStart (t := .key)))).flatMap
    fun (p : CStr × CStr) (_ : p ∈ o.allPairs) =>
      Reading.one (.pair (k := p.1) (v := p.2) (d := .key) (by simp))
  have hall := (Reading.trans hbefore hpairs).trans (.one (.cut (k := k) (v := v)))
  have hrotate : ∀ (ps : List (CStr × CStr)) (rest : List Token),
      .key :: (ps.flatMap (fun p => [.scalar p.1, .value, .scalar p.2, .key]) ++ rest) =
        ps.flatMap pairTokens ++ .key :: rest := by
    intro ps rest
    induction ps with
    | nil => rfl
    | cons p ps ih => simp [← ih, pairTokens]
  have htokens : o.tokens ++ pairTokens (k, v) = o.before ++ [.blockEnd] ++
      ([.key, .scalar o.key, .value, .blockSequenceStart, .blockEntry] ++
        o.entries.flatMap (fun e => e.body ++ [.blockEntry]) ++ [.blockMappingStart, .key] ++
          o.allPairs.flatMap (fun p => [.scalar p.1, .value, .scalar p.2, .key])) ++
      [.scalar k, .value, .scalar v] := by
    have hlast := hrotate o.allPairs [.scalar k, .value, .scalar v]
    have hpair : pairTokens (k, v) = [.key, .scalar k, .value, .scalar v] := rfl
    simp [tokens, hlast, hpair]
  refine ⟨evs, ?_⟩
  rw [htokens]
  have hevents : evs ++ (o.events ++ pairEvents (k, v)) =
      evs ++ ([.key o.key, .sectionStart] ++ o.entries.flatMap Entry.events ++ [] ++
        o.allPairs.flatMap fun p => [.key p.1, .value p.2]) ++ [.key k, .value v] := by
    simp only [events, pairEvents, List.append_assoc, List.nil_append]
    rfl
  rw [hevents]
  exact hall

end OpenEntry

section Refused

variable {env : Env} {sp : Spare} {seg : Seg}

/-- The pairs of an open entry go to its peer, accepted or not. -/
theorem Seg.InEntry.pairs (sp : Spare) {nm : CStr} {done : List (CStr × CStr)} {ps : List PeerSpec}
    {rest : List (CStr × CStr)} (h : seg.InEntry nm done ps) (hrest : ∀ p ∈ rest, PlainKey p.1) :
    (seg.events sp (rest.flatMap pairEvents)).InEntry nm (done ++ rest) ps := by
  induction rest generalizing seg done with
  | nil =>
    rw [List.append_nil]
    exact h
  | cons p rest ih =>
    have hpair := (h.pair offline sp p.2 (hrest p (List.mem_cons_self ..))).1
    rw [List.flatMap_cons, Seg.events_append]
    simpa using ih hpair fun q hq => hrest q (List.mem_cons_of_mem _ hq)

/-- So a pair that the peer refuses ends the process. -/
theorem Seg.InEntry.refuses (sp : Spare) {nm k v : CStr} {done : List (CStr × CStr)}
    {ps : List PeerSpec}
    (h : seg.InEntry nm done ps) (hk : PlainKey k) (hrefused : ¬ Accepted env k v) :
    ¬ seg.AcceptsAll env sp (pairEvents (k, v)) :=
  mt (Seg.events_plain env sp h.ongoing v hk).2.mp hrefused

/-- The abstract loader comes to the pair inside the entry, unless it refused one before. -/
theorem OpenEntry.refuses (o : OpenEntry) {k v : CStr} (hk : PlainKey k)
    (hrefused : ¬ Accepted env k v) : ¬ seg.AcceptsAll env sp (o.events ++ pairEvents (k, v)) := by
  rw [Seg.acceptsAll_append]
  rintro ⟨-, hacc⟩
  have hkey : strncmpEq "symmetric-peers" (clip sp.key o.key) 15 = true := by
    rw [strncmpEq, clip_take (by omega)]
    exact o.symmetric
  have hstart : (seg.events sp [.key o.key, .sectionStart]).sequence = seqSpeer := by
    show (({ seg with key := clip sp.key o.key } : Seg).startSection).sequence = seqSpeer
    unfold Seg.startSection
    rw [if_pos hkey]
  obtain ⟨seg₁, hseg₁⟩ : ∃ seg₁, seg₁ = (seg.events sp [.key o.key, .sectionStart]).events sp
      (o.entries.flatMap Entry.events) := ⟨_, rfl⟩
  have hsequence : seg₁.sequence = seqSpeer := by
    rw [hseg₁, Seg.events_sequence sp (entries_events_no_section o.entries), hstart]
  have hopen := (Seg.events_name offline sp hsequence o.short).1.pairs sp o.plain
  refine hopen.refuses sp hk hrefused ?_
  rw [OpenEntry.events, OpenEntry.allPairs, List.flatMap_cons, Seg.events_append,
    Seg.events_append, ← hseg₁, Seg.events_append] at hacc
  exact hacc

end Refused

/-! ## Files that end well

The two kinds of files meet the condition on the loops: a readable stream leads to its last token,
and the pair that is refused is the last one of a reading that is cut there.
-/

/-- The file begins with an open entry and a pair that its peer refuses. -/
def RefusedEarly (env : Env) (tokens : List Token) : Prop :=
  ∃ (o : OpenEntry) (k v : CStr), o.tokens ++ pairTokens (k, v) <+: tokens ∧ PlainKey k ∧
    ¬ Accepted env k v

/-- **How the configuration is loaded.** A file that can be opened makes `load_config` end and
report failure if its stream was scanned to its end and is readable, and also if it is broken, but
only behind a pair of the symmetric peers that is refused. -/
theorem reportsFailure_of_tokens (env : Env) (file : ConfigFile) {ld : Loader} (h₀ : ld.Start)
    (hopen : file.opened = true)
    (h : (file.stream.ended = true ∧ Readable .streamEnd file.stream.tokens) ∨
      RefusedEarly env file.stream.tokens) : ReportsFailure env file ld := by
  have hin : .streamEnd ∉ file.stream.tokens := fun hmem => (file.stream.inside _ hmem).1 rfl
  refine (reportsFailure_iff_reading env file h₀).mpr ⟨hopen, ?_⟩
  rcases h with ⟨hended, hreadable⟩ | ⟨o, k, v, hpre, hk, hrefused⟩
  · obtain ⟨evs, hread⟩ := hreadable.reading (Or.inl rfl) hin
    have hdelivered : file.stream.delivered = file.stream.tokens ++ [.streamEnd] := by
      simp [TokenStream.delivered, hended]
    exact Or.inl ⟨_, evs, hdelivered ▸ List.prefix_rfl, hread⟩
  · have hbefore : .streamEnd ∉ o.before := fun hmem =>
      hin (hpre.subset (by simp [OpenEntry.tokens, hmem]))
    obtain ⟨evs, hread⟩ := o.reading hbefore k v
    refine Or.inr ⟨_, _, hpre.trans (List.prefix_append ..), hread, fun hacc => ?_⟩
    exact o.refuses hk hrefused (Seg.acceptsAll_append.mp hacc).2

theorem texas_short : CStr.length "texas" < 255 := by decide

/-- A section `global` with one entry, but for its last token. -/
def globalFront : List Token :=
  [.streamStart, .blockMappingStart, .key, .scalar "global", .value, .blockSequenceStart,
    .blockEntry, .blockMappingStart, .key, .scalar "name", .value, .scalar "here", .blockEnd]

theorem globalFront_readable : Readable .blockEnd globalFront where
  keyed := by decide
  mappings rest hrest := by
    simp only [globalFront, List.cons_append, List.nil_append, List.suffix_cons_iff,
      List.suffix_nil, List.cons.injEq, reduceCtorEq, false_and, true_and, false_or, or_false]
      at hrest
    rcases hrest with rfl | rfl
    · exact ⟨globalFront.drop 2, [], rfl, by decide⟩
    · exact ⟨globalFront.drop 8, [], rfl, by decide⟩
  sections a rest hrest := by
    simp only [globalFront, List.cons_append, List.nil_append, List.suffix_cons_iff,
      List.suffix_nil, List.cons.injEq, reduceCtorEq, false_and, true_and, and_false, false_or,
      or_false] at hrest
    obtain ⟨-, rfl⟩ := hrest
    exact ⟨[], .mapping [⟨"name", "here", 3⟩] true, [], rfl, rfl⟩

theorem symmetricPeers_starts : strncmpEq "symmetric-peers" "symmetric-peers" 15 = true := by decide

theorem texasPairs_plain : ∀ p ∈ [(("type", "ingress") : CStr × CStr)], PlainKey p.1 := by decide

/-- An entry of the symmetric peers behind it. -/
def texasEntry : OpenEntry where
  before := globalFront
  readable := globalFront_readable
  key := "symmetric-peers"
  symmetric := symmetricPeers_starts
  entries := []
  name := "texas"
  short := texas_short
  pairs := [("type", "ingress")]
  plain := texasPairs_plain

/-- The entry goes on with `ip-version: 5` and a quote that is not closed. -/
def refusedFile : ConfigFile where
  opened := true
  stream :=
    { tokens := texasEntry.tokens ++ pairTokens ("ip-version", "5") ++ [.key, .scalar "key", .value]
      inside := by decide
      ended := false }

/-- A file with two peers, and one that is refused in front of the scanner's error. -/
theorem reportsFailure_twoFiles :
    ReportsFailure offline twoPeers.document.file (blankLoader 65) ∧
      ReportsFailure offline refusedFile (blankLoader 65) ∧ refusedFile.stream.ended = false :=
  ⟨reportsFailure_of_tokens offline _ (blankLoader_start 65) rfl
      (Or.inl ⟨rfl, twoPeers.document.readable⟩),
    reportsFailure_of_tokens offline _ (blankLoader_start 65) rfl
      (Or.inr ⟨texasEntry, "ip-version", "5", List.prefix_append .., by decide, by decide⟩), rfl⟩

/-- The file `key: "abc` without a closing quote: the scanner fails after `VALUE`. -/
def unclosedQuote : ConfigFile where
  opened := true
  stream :=
    { tokens := [.streamStart, .blockMappingStart, .key, .scalar "key", .value]
      inside := by decide
      ended := false }

/-- The loop over the first mapping waits for a `BLOCK-END` that never comes. -/
theorem reportsFailure_fails :
    ¬ ∀ (env : Env) (file : ConfigFile) (ld : Loader), ld.Start → ReportsFailure env file ld := by
  intro hall
  obtain ⟨outcome, ⟨-, n, hrun⟩, -⟩ :=
    hall offline unclosedQuote (blankLoader 0) (blankLoader_start 0)
  have hnone : loaderRun offline n .stream unclosedQuote.stream.delivered (blankLoader 0) =
      none := by
    match n with
    | 0 | 1 | 2 | 3 => rfl
    | n + 3 => exact loaderRun_nil offline n .mapping _
  cases hnone.symm.trans hrun

end Lanes
