import Lanes.Config.Loader

/-!
# What the loops of `load_config` read

One iteration of a loop reads a few tokens, moves to a loop head and hands key and value scalars to
the code that keeps the peers. `Reads` lists the forms an iteration can take; a sequence of them
from the outer loop to the end of the stream is a stream that the loader gets through. A stream
that is no such sequence leaves a loop waiting for a token that never comes.

This is how the loops are used from here on. A proof about a file builds a `Reading` of its tokens
and has, by `Reading.run`, the run of the loader with the events of that reading. Conversely every
run that comes to an end has a reading behind it, whole or cut at a refused value
(`reading_of_run`).
-/

namespace Lanes

/-! ## Events

What the iterations hand to the code that keeps the peers, in order. The loops do not look at the
peers, nor does that code look at the tokens, so the two can be separated here. -/

/-- What the loops hand to the rest of the loader. -/
inductive Event where
  /-- A key scalar, copied to `key`. -/
  | key (k : CStr)
  /-- A `BLOCK-SEQUENCE-START` after a key of the outer loop. -/
  | sectionStart
  /-- A value scalar inside an entry. -/
  | value (v : CStr)
  deriving DecidableEq

/-- What the loader does at an event; `none` is `die (1, …)`. -/
def Loader.event (env : Env) (ld : Loader) : Event → Option Loader
  | .key k => some (ld.setKey k)
  | .sectionStart => some ld.startSection
  | .value v => ld.entryValue env v

def Loader.events (env : Env) (ld : Loader) (evs : List Event) : Option Loader :=
  evs.foldlM (Loader.event env) ld

theorem Loader.events_append (env : Env) (ld : Loader) (xs ys : List Event) :
    ld.events env (xs ++ ys) = (ld.events env xs).bind fun ld => ld.events env ys := by
  simp [Loader.events, List.foldlM_append]

/-- The event of the token after a `KEY` in the outer loops. -/
def keyEvents : Token → List Event
  | .scalar k => [.key k]
  | _ => []

theorem events_keyEvents (env : Env) (ld : Loader) (token : Token) :
    ld.events env (keyEvents token) = some (copyKey ld token) := by
  cases token <;> rfl

theorem events_pair (env : Env) (ld : Loader) (k v : CStr) :
    ld.events env [.key k, .value v] = (ld.setKey k).entryValue env v := by
  show ((ld.setKey k).entryValue env v).bind some = _
  cases (ld.setKey k).entryValue env v <;> rfl

/-! ## Iterations

The constructors follow the branches of the source, one for each way through the body of a loop.
The iteration that starts a pair reads on to the token behind it. -/

/-- A loop head, the end of the loops, or the point right after a value scalar. -/
inductive Stage where
  | head (pos : Pos)
  | finished
  | cut
  deriving DecidableEq

/-- Where the outer loop goes after an iteration whose last token is `t`. -/
def afterStream (t : Token) : Stage := if t = .streamEnd then .finished else .head .stream

def afterMapping (t : Token) : Stage := .head (if t = .blockEnd then .stream else .mapping)

def afterSequence (t : Token) : Stage := .head (if t = .blockEnd then .stream else .sequence)

/-- `Reads pos ts evs stage`: an iteration that starts at the loop head `pos` can read the tokens
`ts`, with the events `evs`, and reach `stage`. -/
inductive Reads : Pos → List Token → List Event → Stage → Prop
  | mappingStart : Reads .stream [.blockMappingStart] [] (.head .mapping)
  | other {t : Token} : t ≠ .blockMappingStart → t ≠ .key → Reads .stream [t] [] (afterStream t)
  | keyOnly {a b : Token} : b ≠ .value →
      Reads .stream [.key, a, b] (keyEvents a) (afterStream b)
  | keyValue {a c : Token} : c ≠ .blockSequenceStart →
      Reads .stream [.key, a, .value, c] (keyEvents a) (afterStream c)
  | emptySection {a d : Token} : d ≠ .blockEntry →
      Reads .stream [.key, a, .value, .blockSequenceStart, d] (keyEvents a ++ [.sectionStart])
        (afterStream d)
  | entries {a : Token} :
      Reads .stream [.key, a, .value, .blockSequenceStart, .blockEntry]
        (keyEvents a ++ [.sectionStart]) (.head .sequence)
  | mappingOther {t : Token} : t ≠ .key → Reads .mapping [t] [] (afterMapping t)
  | mappingKey {a b : Token} : b ≠ .value →
      Reads .mapping [.key, a, b] (keyEvents a) (afterMapping b)
  | mappingValue {a c : Token} :
      Reads .mapping [.key, a, .value, c] (keyEvents a) (afterMapping c)
  | sequenceOther {t : Token} : t ≠ .blockMappingStart →
      Reads .sequence [t] [] (afterSequence t)
  | entryStart {t : Token} : Reads .sequence [.blockMappingStart, t] [] (.head (.entry t))
  | entryEnd {t : Token} : t = .blockEntry ∨ t = .blockEnd →
      Reads (.entry t) [] [] (afterSequence t)
  | entryKey {a : Token} : (∀ k, a ≠ .scalar k) → Reads (.entry .key) [a] [] (.head (.entry a))
  | entryNoValue {k : CStr} {b : Token} : b ≠ .value →
      Reads (.entry .key) [.scalar k, b] [.key k] (.head (.entry b))
  | entryNoScalar {k : CStr} {c : Token} : (∀ v, c ≠ .scalar v) →
      Reads (.entry .key) [.scalar k, .value, c] [.key k] (.head (.entry c))
  | pair {k v : CStr} {d : Token} : d ≠ .blockEnd →
      Reads (.entry .key) [.scalar k, .value, .scalar v, d] [.key k, .value v] (.head (.entry d))
  | lastPair {k v : CStr} {d : Token} :
      Reads (.entry .key) [.scalar k, .value, .scalar v, .blockEnd, d] [.key k, .value v]
        (.head (.entry d))
  | cut {k v : CStr} :
      Reads (.entry .key) [.scalar k, .value, .scalar v] [.key k, .value v] .cut

/-- A sequence of iterations from a loop head on. -/
inductive Reading : Pos → List Token → List Event → Stage → Prop
  | one {pos : Pos} {ts : List Token} {evs : List Event} {stage : Stage} :
      Reads pos ts evs stage → Reading pos ts evs stage
  | step {pos pos' : Pos} {ts ts' : List Token} {evs evs' : List Event} {stage : Stage} :
      Reads pos ts evs (.head pos') → Reading pos' ts' evs' stage →
      Reading pos (ts ++ ts') (evs ++ evs') stage

/-- A reading that ends at a loop head can go on from there. -/
theorem Reading.trans {pos pos' : Pos} {ts ts' : List Token} {evs evs' : List Event}
    {stage : Stage} (h : Reading pos ts evs (.head pos')) (h' : Reading pos' ts' evs' stage) :
    Reading pos (ts ++ ts') (evs ++ evs') stage := by
  generalize hs : Stage.head pos' = mid at h
  induction h with
  | one hr =>
    subst hs
    exact .step hr h'
  | step hr _ ih =>
    rw [List.append_assoc, List.append_assoc]
    exact .step hr (ih hs)

/-! ## The loops take exactly these iterations

`Reads.step_some` and `Reads.step_none` are one direction, by cases on the form of the iteration;
`loaderStep_view` is the other, by cases on the tokens that are left. -/

/-- What the machine does with the state after an iteration. -/
def Next.reached (stage : Stage) (rest : List Token) (ld : Loader) : Next :=
  match stage with
  | .head pos => .at pos rest ld
  | .finished => .returned ld.finish
  | .cut => .died

section Machine

variable {env : Env} {pos : Pos} {ts rest : List Token} {evs : List Event} {stage : Stage}
  {ld ld' : Loader} {t : Token}

theorem streamTest_eq : streamTest t rest ld = Next.reached (afterStream t) rest ld := by
  unfold streamTest afterStream
  split <;> rfl

theorem mappingTest_eq : mappingTest t rest ld = Next.reached (afterMapping t) rest ld := by
  unfold mappingTest afterMapping
  split
  · rename_i he
    simp [he, streamTest, Next.reached]
  · rfl

theorem sequenceTest_eq : sequenceTest t rest ld = Next.reached (afterSequence t) rest ld := by
  unfold sequenceTest afterSequence
  split
  · rename_i he
    simp [he, streamTest, Next.reached]
  · rfl

/-- An iteration whose events go through takes the machine to the stage it reaches. -/
theorem Reads.step_some (h : Reads pos ts evs stage) (hcut : stage ≠ .cut)
    (hld : ld.events env evs = some ld') :
    loaderStep env pos (ts ++ rest) ld = Next.reached stage rest ld' := by
  cases h with
  | mappingStart =>
    cases hld
    rfl
  | other hmap hkey =>
    cases hld
    simp [loaderStep, streamStep, scan, hmap, hkey, streamTest_eq]
  | keyOnly hvalue =>
    rw [events_keyEvents] at hld
    cases hld
    simp [loaderStep, streamStep, scan, hvalue, streamTest_eq]
  | keyValue hseq =>
    rw [events_keyEvents] at hld
    cases hld
    simp [loaderStep, streamStep, scan, hseq, streamTest_eq]
  | emptySection hentry =>
    rw [Loader.events_append, events_keyEvents] at hld
    cases hld
    simp [loaderStep, streamStep, scan, hentry, streamTest_eq]
  | entries =>
    rw [Loader.events_append, events_keyEvents] at hld
    cases hld
    rfl
  | mappingOther hkey =>
    cases hld
    simp [loaderStep, mappingStep, scan, hkey, mappingTest_eq]
  | mappingKey hvalue =>
    rw [events_keyEvents] at hld
    cases hld
    simp [loaderStep, mappingStep, scan, hvalue, mappingTest_eq]
  | mappingValue =>
    rw [events_keyEvents] at hld
    cases hld
    simp [loaderStep, mappingStep, scan, mappingTest_eq]
  | sequenceOther hmap =>
    cases hld
    simp [loaderStep, sequenceStep, scan, hmap, sequenceTest_eq]
  | entryStart =>
    cases hld
    rfl
  | entryEnd hend =>
    cases hld
    simp [loaderStep, entryStep, hend, sequenceTest_eq]
  | @entryKey a hscalar =>
    cases hld
    cases a <;> first | rfl | exact absurd rfl (hscalar _)
  | entryNoValue hvalue =>
    cases hld
    simp [loaderStep, entryStep, scan, hvalue, Next.reached]
  | @entryNoScalar k c hscalar =>
    cases hld
    cases c <;> first | rfl | exact absurd rfl (hscalar _)
  | @pair k v d hend =>
    have hv : (ld.setKey k).entryValue env v = some ld' := by rwa [events_pair] at hld
    simp [loaderStep, entryStep, scan, hv, hend, Next.reached]
  | @lastPair k v d =>
    have hv : (ld.setKey k).entryValue env v = some ld' := by rwa [events_pair] at hld
    simp [loaderStep, entryStep, scan, hv, Next.reached]
  | cut => exact absurd rfl hcut

/-- An iteration whose events do not go through ends the process. -/
theorem Reads.step_none (h : Reads pos ts evs stage) (hld : ld.events env evs = none) :
    loaderStep env pos (ts ++ rest) ld = .died := by
  cases h with
  | @pair k v d _ =>
    have hv : (ld.setKey k).entryValue env v = none := by rwa [events_pair] at hld
    simp [loaderStep, entryStep, scan, hv]
  | @lastPair k v d =>
    have hv : (ld.setKey k).entryValue env v = none := by rwa [events_pair] at hld
    simp [loaderStep, entryStep, scan, hv]
  | @cut k v =>
    have hv : (ld.setKey k).entryValue env v = none := by rwa [events_pair] at hld
    simp [loaderStep, entryStep, scan, hv]
  | keyOnly | keyValue | mappingKey | mappingValue =>
    rw [events_keyEvents] at hld
    cases hld
  | emptySection | entries =>
    rw [Loader.events_append, events_keyEvents] at hld
    cases hld
  | _ => cases hld

/-- An iteration at a loop head, seen from the tokens that are left. -/
inductive StepView (env : Env) (pos : Pos) (rest : List Token) (ld : Loader) : Prop
  /-- The loop does not move at all. -/
  | stuck : loaderStep env pos rest ld = .at pos rest ld → StepView env pos rest ld
  /-- The tokens run out. -/
  | starved {pos' : Pos} {ld' : Loader} : loaderStep env pos rest ld = .at pos' [] ld' →
      StepView env pos rest ld
  | reads (ts : List Token) {rest' : List Token} {evs : List Event} {stage : Stage}
      {ld' : Loader} : rest = ts ++ rest' → Reads pos ts evs stage → stage ≠ .cut →
      ld.events env evs = some ld' → StepView env pos rest ld
  | dies (ts : List Token) {rest' : List Token} {evs : List Event} :
      rest = ts ++ rest' → Reads pos ts evs .cut → ld.events env evs = none →
      StepView env pos rest ld

theorem afterStream_ne_cut (t : Token) : afterStream t ≠ .cut := by
  unfold afterStream
  split <;> simp

/-- The outer loop. It looks at the token in front of it, and behind a `KEY` at the third and fourth
and, in front of a section, at the fifth. -/
theorem streamStep_view (env : Env) (rest : List Token) (ld : Loader) :
    StepView env .stream rest ld := by
  cases rest with
  | nil => exact .stuck rfl
  | cons t rest =>
    by_cases hmap : t = .blockMappingStart
    · subst hmap
      exact .reads [_] rfl .mappingStart (by simp) rfl
    by_cases hkey : t = .key
    swap
    · exact .reads [_] rfl (.other hmap hkey) (afterStream_ne_cut t) rfl
    subst hkey
    match rest with
    | [] => exact .starved rfl
    | [a] => exact .starved rfl
    | a :: b :: rest =>
      by_cases hvalue : b = .value
      swap
      · exact .reads [_, _, _] rfl (.keyOnly hvalue) (afterStream_ne_cut b)
          (events_keyEvents env ld a)
      subst hvalue
      match rest with
      | [] => exact .starved rfl
      | c :: rest =>
        by_cases hseq : c = .blockSequenceStart
        swap
        · exact .reads [_, _, _, _] rfl (.keyValue hseq) (afterStream_ne_cut c)
            (events_keyEvents env ld a)
        subst hseq
        -- the start of a sequence, with or without an entry in it
        have hevs : ld.events env (keyEvents a ++ [.sectionStart]) =
            some (copyKey ld a).startSection := by
          rw [Loader.events_append, events_keyEvents]
          rfl
        match rest with
        | [] => exact .starved rfl
        | d :: rest =>
          by_cases hentry : d = .blockEntry
          · subst hentry
            exact .reads [_, _, _, _, _] rfl .entries (by simp) hevs
          · exact .reads [_, _, _, _, _] rfl (.emptySection hentry)
              (afterStream_ne_cut d) hevs

/-- The loop over the first mapping, which keeps nothing but the key. -/
theorem mappingStep_view (env : Env) (rest : List Token) (ld : Loader) :
    StepView env .mapping rest ld := by
  cases rest with
  | nil => exact .stuck rfl
  | cons t rest =>
    by_cases hkey : t = .key
    swap
    · exact .reads [_] rfl (.mappingOther hkey) (by simp [afterMapping]) rfl
    subst hkey
    match rest with
    | [] => exact .starved rfl
    | [a] => exact .starved rfl
    | a :: b :: rest =>
      by_cases hvalue : b = .value
      swap
      · exact .reads [_, _, _] rfl (.mappingKey hvalue) (by simp [afterMapping])
          (events_keyEvents env ld a)
      subst hvalue
      match rest with
      | [] => exact .starved rfl
      | c :: rest =>
        exact .reads [_, _, _, _] rfl .mappingValue (by simp [afterMapping])
          (events_keyEvents env ld a)

/-- The loop over a section. The token behind the start of a mapping is the one that the loop inside
looks at first. -/
theorem sequenceStep_view (env : Env) (rest : List Token) (ld : Loader) :
    StepView env .sequence rest ld := by
  cases rest with
  | nil => exact .stuck rfl
  | cons t rest =>
    by_cases hmap : t = .blockMappingStart
    swap
    · exact .reads [_] rfl (.sequenceOther hmap) (by simp [afterSequence]) rfl
    subst hmap
    match rest with
    | [] => exact .starved rfl
    | a :: rest => exact .reads [_, _] rfl .entryStart (by simp) rfl

/-- After a pair the events decide whether the loader goes on. -/
theorem pair_view {env : Env} {rest : List Token} {ld : Loader} {k v : CStr} :
    StepView env (.entry .key) (.scalar k :: .value :: .scalar v :: rest) ld := by
  have hevs := events_pair env ld k v
  cases hv : (ld.setKey k).entryValue env v with
  | none => exact .dies [_, _, _] rfl .cut (hevs.trans hv)
  | some ld' =>
    rw [hv] at hevs
    match rest with
    | [] =>
      have hstep : loaderStep env (.entry .key) [.scalar k, .value, .scalar v] ld =
          .at (.entry .noToken) [] ld' := by
        simp [loaderStep, entryStep, scan, hv]
      exact .starved hstep
    | d :: rest =>
      by_cases hend : d = .blockEnd
      swap
      · exact .reads [_, _, _, _] rfl (.pair hend) (by simp) hevs
      subst hend
      match rest with
      | [] =>
        have hstep : loaderStep env (.entry .key) [.scalar k, .value, .scalar v, .blockEnd] ld =
            .at (.entry .noToken) [] ld' := by
          simp [loaderStep, entryStep, scan, hv]
        exact .starved hstep
      | e :: rest => exact .reads [_, _, _, _, _] rfl .lastPair (by simp) hevs

/-- The loop over the mapping of an entry. It scans only behind a `KEY`, so with any other token
that does not end it this loop stands still. -/
theorem entryStep_view (env : Env) (token : Token) (rest : List Token) (ld : Loader) :
    StepView env (.entry token) rest ld := by
  by_cases hend : token = .blockEntry ∨ token = .blockEnd
  · exact .reads [] rfl (.entryEnd hend) (by simp [afterSequence]) rfl
  by_cases hkey : token = .key
  swap
  · exact .stuck (by simp [loaderStep, entryStep, hend, hkey])
  subst hkey
  match rest with
  | [] => exact .starved rfl
  | a :: rest =>
    by_cases hscalar : ∀ k, a ≠ .scalar k
    · exact .reads [_] rfl (.entryKey hscalar) (by simp) rfl
    obtain ⟨k, rfl⟩ : ∃ k, a = .scalar k := by simpa using hscalar
    match rest with
    | [] => exact .starved rfl
    | b :: rest =>
      by_cases hvalue : b = .value
      swap
      · exact .reads [_, _] rfl (.entryNoValue hvalue) (by simp) rfl
      subst hvalue
      match rest with
      | [] => exact .starved rfl
      | c :: rest =>
        by_cases hval : ∀ v, c ≠ .scalar v
        · exact .reads [_, _, _] rfl (.entryNoScalar hval) (by simp) rfl
        obtain ⟨v, rfl⟩ : ∃ v, c = .scalar v := by simpa using hval
        exact pair_view

/-- Whatever the tokens are, an iteration is one of `Reads`, or the machine does not come to an end
from here on. -/
theorem loaderStep_view (env : Env) (pos : Pos) (rest : List Token) (ld : Loader) :
    StepView env pos rest ld := by
  cases pos with
  | stream => exact streamStep_view env rest ld
  | mapping => exact mappingStep_view env rest ld
  | sequence => exact sequenceStep_view env rest ld
  | entry token => exact entryStep_view env token rest ld

/-- Once the tokens have run out no loop ends. -/
theorem loaderRun_nil (env : Env) (n : Nat) (pos : Pos) (ld : Loader) :
    loaderRun env n pos [] ld = none := by
  induction n generalizing pos ld with
  | zero => rfl
  | succ n ih =>
    have hstep : ∃ pos' ld', loaderStep env pos [] ld = .at pos' [] ld' := by
      cases pos with
      | stream => exact ⟨_, _, rfl⟩
      | mapping => exact ⟨_, _, rfl⟩
      | sequence => exact ⟨_, _, rfl⟩
      | entry t =>
        show ∃ pos' ld', entryStep env t [] ld = .at pos' [] ld'
        unfold entryStep
        split
        · rw [sequenceTest_eq]
          exact ⟨_, _, rfl⟩
        · split
          · exact ⟨_, _, rfl⟩
          · exact ⟨_, _, rfl⟩
    obtain ⟨pos', ld', hstep⟩ := hstep
    rw [loaderRun, hstep]
    exact ih pos' ld'

/-! ## Runs

The machine has as many units of fuel as it makes iterations; a reading gives the number that is
enough. -/

/-- A run that ends has read a prefix of the tokens: up to the end of the stream, or up to a value
that ends the process. -/
theorem reading_of_run {n : Nat} {outcome : Outcome}
    (hrun : loaderRun env n pos rest ld = some outcome) :
    ∃ ts evs, ts <+: rest ∧
      ((Reading pos ts evs .finished ∧ ∃ ld', ld.events env evs = some ld' ∧
        outcome = .returned ld'.finish) ∨
      (Reading pos ts evs .cut ∧ ld.events env evs = none ∧ outcome = .died)) := by
  induction n generalizing pos rest ld with
  | zero => cases hrun
  | succ n ih =>
    rw [loaderRun] at hrun
    cases loaderStep_view env pos rest ld with
    -- an iteration that reads nothing is repeated
    | stuck hstep =>
      rw [hstep] at hrun
      exact ih hrun
    -- the tokens ran out inside the iteration, and then no loop ends
    | starved hstep =>
      rw [hstep] at hrun
      cases (loaderRun_nil env n _ _).symm.trans hrun
    | dies ts hrest hreads hnone =>
      subst hrest
      rw [hreads.step_none hnone] at hrun
      cases hrun
      exact ⟨ts, _, List.prefix_append .., Or.inr ⟨.one hreads, hnone, rfl⟩⟩
    | @reads ts rest' evs stage ld' hrest hreads hcut hsome =>
      subst hrest
      rw [hreads.step_some hcut hsome] at hrun
      cases stage with
      | cut => exact absurd rfl hcut
      | finished =>
        cases hrun
        exact ⟨ts, evs, List.prefix_append .., Or.inl ⟨.one hreads, ld', hsome, rfl⟩⟩
      | head pos' =>
        -- the run goes on at the loop head that this iteration reached
        obtain ⟨ts', evs', hpre, hend⟩ := ih hrun
        have hevs : ld.events env (evs ++ evs') = ld'.events env evs' := by
          rw [Loader.events_append, hsome]
          rfl
        refine ⟨ts ++ ts', evs ++ evs', (List.prefix_append_right_inj ts).mpr hpre, ?_⟩
        rw [hevs]
        rcases hend with ⟨hread, hend⟩ | ⟨hread, hend⟩
        · exact Or.inl ⟨.step hreads hread, hend⟩
        · exact Or.inr ⟨.step hreads hread, hend⟩

/-- A reading to the end of the stream, or one whose last value ends the process, is run. -/
theorem Reading.run (env : Env) (rest : List Token) (ld : Loader)
    (h : Reading pos ts evs stage) (hstage : stage = .finished ∨ ld.events env evs = none) :
    ∃ n, loaderRun env n pos (ts ++ rest) ld =
      some (match ld.events env evs with
        | some ld' => .returned ld'.finish
        | none => .died) := by
  induction h generalizing ld with
  | @one pos ts evs stage hreads =>
    cases hev : ld.events env evs with
    | none => exact ⟨1, by rw [loaderRun, hreads.step_none hev]⟩
    | some ld' =>
      have hfin : stage = .finished := hstage.resolve_right (by simp [hev])
      subst hfin
      exact ⟨1, by rw [loaderRun, hreads.step_some (by simp) hev]; rfl⟩
  | @step pos pos' ts ts' evs evs' stage hreads _ ih =>
    rw [Loader.events_append]
    cases hev : ld.events env evs with
    | none => exact ⟨1, by rw [loaderRun, List.append_assoc, hreads.step_none hev]; rfl⟩
    | some ld' =>
      rw [Loader.events_append, hev] at hstage
      obtain ⟨n, hn⟩ := ih ld' hstage
      refine ⟨n + 1, ?_⟩
      rw [loaderRun, List.append_assoc, hreads.step_some (by simp) hev]
      exact hn

end Machine

/-- Only `STREAM-END` finishes a reading. -/
theorem Reading.streamEnd_mem {pos : Pos} {ts : List Token} {evs : List Event}
    (h : Reading pos ts evs .finished) : .streamEnd ∈ ts := by
  have hafter : ∀ {t : Token}, afterStream t = .finished → t = .streamEnd := fun {t} ht => by
    unfold afterStream at ht
    split at ht
    · assumption
    · cases ht
  generalize hs : Stage.finished = stage at h
  induction h with
  | one hreads =>
    cases hreads with
    | other | keyOnly | keyValue | emptySection => simp [hafter hs.symm]
    | _ => cases hs
  | step _ _ ih => exact List.mem_append_right _ (ih hs)

theorem TokenStream.ended_of_mem {s : TokenStream} (h : .streamEnd ∈ s.delivered) :
    s.ended = true := by
  rcases List.mem_append.mp h with hin | hend
  · exact absurd rfl (s.inside _ hin).1
  · by_contra hne
    simp [hne] at hend

end Lanes
