import Lanes.Config.Peer
import Lanes.Lib.Dlist

/-!
# `load_config`

The loader of `state.c` over the tokens that the YAML scanner delivers. Its four nested loops are a
machine that runs one loop iteration at a time: a position says which loop head comes next, and the
innermost loop also remembers the token it looks at. The other loops scan before they look.

* `Loader` holds the variables of the function; `loaderStep` is one iteration, `loaderRun` as many
  as a bound allows.
* `LoadConfig` says how the function ends. It has no bound, and where no bound is enough there is no
  end: the loops test for one token each and go on scanning behind the end of the stream.
-/

namespace Lanes

/-! ## Tokens

What the scanner makes of a file is not modelled; a stream of tokens is given. Behind the end of the
stream, or where an error stopped it, every scan delivers `NO_TOKEN`.
-/

/-- `yaml_token_type_t`; a scalar comes with its value as the string functions of C see it. -/
inductive Token where
  | noToken
  | streamStart
  | streamEnd
  | versionDirective
  | tagDirective
  | documentStart
  | documentEnd
  | blockSequenceStart
  | blockMappingStart
  | blockEnd
  | flowSequenceStart
  | flowSequenceEnd
  | flowMappingStart
  | flowMappingEnd
  | blockEntry
  | flowEntry
  | key
  | value
  | alias
  | anchor
  | tag
  | scalar (value : CStr)
  deriving DecidableEq

/-- What the scanner delivers for a file: `tokens`, and then the end of the stream or an error. -/
structure TokenStream where
  tokens : List Token
  inside : ∀ t ∈ tokens, t ≠ .streamEnd ∧ t ≠ .noToken
  ended : Bool

/-- The tokens delivered; every later scan delivers `NO_TOKEN`. -/
def TokenStream.delivered (s : TokenStream) : List Token :=
  s.tokens ++ if s.ended then [.streamEnd] else []

/-- `yaml_parser_scan`. -/
def scan : List Token → Token × List Token
  | [] => (.noToken, [])
  | t :: rest => (t, rest)

/-! ## Data

The character arrays are memories with contents of their own: `strncpy` with 255 leaves their last
byte as it was, and a value that is too long has its end there only if that byte is a NUL. The peers
are structures in a heap, and `MPL` is a list of them by its pointers.
-/

def seqGlobal : Nat := 1
def seqApeer : Nat := 2
def seqSpeer : Nat := 3

/-- The variables of `load_config`, the static `sequence`, the peers it allocates and the list heads
of `MPL` (node 0) and of the peers. `malloc` hands out the structures 1, 2, … of `heap`, whose
contents before that are arbitrary. -/
structure Loader where
  /-- `char key[256]`, `name[256]` and `last_name[256]`. -/
  key : Mem
  name : Mem
  lastName : Mem
  sequence : Nat
  peerInit : Bool
  peerid : Int
  /-- The structure `peer` points to. -/
  peer : Nat
  allocated : Nat
  heap : Nat → PeerCtx
  mpl : Dlist.Links Nat

namespace Loader

/-- `strncpy (key, value, 255)`. -/
def setKey (ld : Loader) (value : CStr) : Loader :=
  { ld with key := ld.key.strncpy 0 value 255 }

/-- The section comparison at a `BLOCK-SEQUENCE-START`. -/
def startSection (ld : Loader) : Loader :=
  let key := ld.key.str 0 256
  if strncmpEq "symmetric-peers" key 15 then { ld with sequence := seqSpeer }
  else if strncmpEq "assymetric-peers" key 16 then { ld with sequence := seqApeer }
  else ld

/-- `add_to_peer_list (peer)`. -/
def addToPeerList (ld : Loader) : Loader := { ld with mpl := ld.mpl.add ld.peer 0 }

/-- `init_peer_list ()`. -/
def initPeerList (ld : Loader) : Loader := { ld with mpl := ld.mpl.init 0 }

/-- Start the next peer: link the one before it, allocate, number and name it. -/
def newPeer (ld : Loader) : Loader :=
  -- a peer is linked only when the next one starts, the last one after the loops
  let ld := if ld.peerInit then ld.addToPeerList else { ld.initPeerList with peerInit := true }
  let name := ld.name.str 0 256
  let peer := ld.allocated + 1
  let fresh := { ld.heap peer with id := ld.peerid }
  { ld with
    allocated := peer
    peer := peer
    peerid := ld.peerid + 1
    heap := Function.update ld.heap peer (fresh.copy .name name 255)
    lastName := ld.lastName.strncpy 0 name 255 }

/-- The innermost code: a scalar value for the key in `key`. `none` is `die (1, …)`. -/
def entryValue (env : Env) (ld : Loader) (value : CStr) : Option Loader :=
  let key := ld.key.str 0 256
  let ld := if strncmpEq "name" key 4 then { ld with name := ld.name.strncpy 0 value 255 } else ld
  if ld.sequence = seqSpeer then
    let name := ld.name.str 0 256
    let lastName := ld.lastName.str 0 256
    -- a pair of the current peer, unless it brings a name or the name has changed
    if ld.peerInit = true ∧ strncmpEq key "name" key.length = false ∧
        strncmpEq lastName name lastName.length = true then
      (applyKey env key value (ld.heap ld.peer)).map fun peer =>
        { ld with heap := Function.update ld.heap ld.peer peer }
    else some ld.newPeer
  else some ld

/-- After the loops: `if (peer_init) add_to_peer_list (peer)`. -/
def finish (ld : Loader) : Loader := if ld.peerInit then ld.addToPeerList else ld

end Loader

/-! ## Control

A test is what the source evaluates at the end of a loop body: it goes back to the head of that loop
or on to the test of the loop around it.
-/

/-- The loop whose head comes next. -/
inductive Pos where
  | stream
  | mapping
  | sequence
  | entry (token : Token)
  deriving DecidableEq

inductive Next where
  | at (pos : Pos) (rest : List Token) (ld : Loader)
  /-- `return 0`. -/
  | returned (ld : Loader)
  /-- `exit (1)` in `die`. -/
  | died

/-- `while (token.type != YAML_STREAM_END_TOKEN)`. -/
def streamTest (token : Token) (rest : List Token) (ld : Loader) : Next :=
  if token = .streamEnd then .returned ld.finish else .at .stream rest ld

/-- `while (token.type != YAML_BLOCK_END_TOKEN)` of the first top-level mapping. -/
def mappingTest (token : Token) (rest : List Token) (ld : Loader) : Next :=
  if token = .blockEnd then streamTest token rest ld else .at .mapping rest ld

/-- The same test of a section's sequence. -/
def sequenceTest (token : Token) (rest : List Token) (ld : Loader) : Next :=
  if token = .blockEnd then streamTest token rest ld else .at .sequence rest ld

/-- `if (token.type == YAML_SCALAR_TOKEN) strncpy (key, …)`. -/
def copyKey (ld : Loader) : Token → Loader
  | .scalar k => ld.setKey k
  | _ => ld

/-- One iteration of the outer loop. -/
def streamStep (rest : List Token) (ld : Loader) : Next :=
  let (token, rest) := scan rest
  -- the first top-level mapping has a loop of its own
  if token = .blockMappingStart then .at .mapping rest ld
  else if token = .key then
    let (token, rest) := scan rest
    let ld := copyKey ld token
    let (token, rest) := scan rest
    if token = .value then
      let (token, rest) := scan rest
      if token = .blockSequenceStart then
        -- `sequence` changes only here, not at the end of a section
        let ld := ld.startSection
        let (token, rest) := scan rest
        if token = .blockEntry then .at .sequence rest ld else streamTest token rest ld
      else streamTest token rest ld
    else streamTest token rest ld
  else streamTest token rest ld

/-- One iteration of the loop over the first top-level mapping. -/
def mappingStep (rest : List Token) (ld : Loader) : Next :=
  let (token, rest) := scan rest
  if token = .key then
    let (token, rest) := scan rest
    let ld := copyKey ld token
    let (token, rest) := scan rest
    if token = .value then
      let (token, rest) := scan rest
      mappingTest token rest ld
    else mappingTest token rest ld
  else mappingTest token rest ld

/-- One iteration of the loop over the sequence of a section, up to the loop inside it. -/
def sequenceStep (rest : List Token) (ld : Loader) : Next :=
  let (token, rest) := scan rest
  if token = .blockMappingStart then
    let (token, rest) := scan rest
    .at (.entry token) rest ld
  else sequenceTest token rest ld

/-- The test and one iteration of the loop over the mapping of an entry. -/
def entryStep (env : Env) (token : Token) (rest : List Token) (ld : Loader) : Next :=
  if token = .blockEntry ∨ token = .blockEnd then sequenceTest token rest ld
  else if token = .key then
    let (token, rest) := scan rest
    match token with
    | .scalar k =>
      let ld := ld.setKey k
      let (token, rest) := scan rest
      if token = .value then
        let (token, rest) := scan rest
        match token with
        | .scalar v =>
          match ld.entryValue env v with
          | none => .died
          | some ld =>
            let (token, rest) := scan rest
            -- the end of the mapping: look at what follows
            if token = .blockEnd then
              let (token, rest) := scan rest
              .at (.entry token) rest ld
            else .at (.entry token) rest ld
        | token => .at (.entry token) rest ld
      else .at (.entry token) rest ld
    | token => .at (.entry token) rest ld
  else .at (.entry token) rest ld

def loaderStep (env : Env) (pos : Pos) (rest : List Token) (ld : Loader) : Next :=
  match pos with
  | .stream => streamStep rest ld
  | .mapping => mappingStep rest ld
  | .sequence => sequenceStep rest ld
  | .entry token => entryStep env token rest ld

/-- How `load_config` ends: `return 0` with the state it leaves, or the end of the process. -/
inductive Outcome where
  | returned (ld : Loader)
  | died

/-- Run the loops for at most `n` iterations. -/
def loaderRun (env : Env) : Nat → Pos → List Token → Loader → Option Outcome
  | 0, _, _, _ => none
  | n + 1, pos, rest, ld =>
    match loaderStep env pos rest ld with
    | .at pos rest ld => loaderRun env n pos rest ld
    | .returned ld => some (.returned ld)
    | .died => some .died

/-- A configuration file; `opened` says whether `fopen` succeeds. -/
structure ConfigFile where
  opened : Bool
  stream : TokenStream

/-- `load_config` on `file` ends with `outcome`. When `fopen` fails the code hands a null pointer to
`yaml_parser_set_input_file`, which wants an open file, so nothing is known of what follows. -/
def LoadConfig (env : Env) (file : ConfigFile) (ld : Loader) (outcome : Outcome) : Prop :=
  file.opened = true ∧ ∃ n, loaderRun env n .stream file.stream.delivered ld = some outcome

theorem loaderRun_add {env : Env} {n : Nat} {pos : Pos} {rest : List Token} {ld : Loader}
    {outcome : Outcome} (h : loaderRun env n pos rest ld = some outcome) (k : Nat) :
    loaderRun env (n + k) pos rest ld = some outcome := by
  induction n generalizing pos rest ld with
  | zero => cases h
  | succ n ih =>
    rw [Nat.add_right_comm, loaderRun]
    rw [loaderRun] at h
    cases hstep : loaderStep env pos rest ld with
    | «at» pos' rest' ld' =>
      rw [hstep] at h
      exact ih h
    | returned ld' =>
      rw [hstep] at h
      exact h
    | died =>
      rw [hstep] at h
      exact h

/-- `load_config` ends in one way. -/
theorem LoadConfig.unique {env : Env} {file : ConfigFile} {ld : Loader} {o o' : Outcome}
    (h : LoadConfig env file ld o) (h' : LoadConfig env file ld o') : o = o' := by
  obtain ⟨-, n, hn⟩ := h
  obtain ⟨-, m, hm⟩ := h'
  have hn' := loaderRun_add hn m
  rw [Nat.add_comm, loaderRun_add hm n] at hn'
  exact (Option.some.inj hn').symm

end Lanes
