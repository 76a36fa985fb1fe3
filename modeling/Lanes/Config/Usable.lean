import Lanes.Config.Failure
import Lanes.Config.Frame
import Lanes.Config.Sample

/-!
# Whether a loaded peer can be used

A structure that `malloc` hands out starts with arbitrary contents, and a field that no pair of the
entry sets keeps them. What the set-up of a session trusts in a peer therefore has to come from the
pairs, whose values are hardly checked.

**`usable_iff`** is about a file that is loaded, with any contents of `malloc`. Its two directions
are different in kind:

* if the file configures its peers, each of them is usable whatever was in memory
  (`PeerConfigured.usable`);
* if it does not, there are contents of memory for which some peer is not. One structure serves for
  all of them: `fullStructure`, whose arrays have no NUL and whose numbers are useless
  (`PeerUsable.configured`).
-/

namespace Lanes

/-! ## The last pair decides

For each number of a peer, that it is the value of the last pair with its key, or what it was. -/

/-- What the last of the pairs that have a value under `u` has there. -/
def lastOf {β : Type*} (u : CStr × CStr → Option β) : List (CStr × CStr) → Option β
  | [] => none
  | p :: ps => (lastOf u ps).or (u p)

/-- The value of a pair for the setting. -/
def valueFor (s : Setting) (pair : CStr × CStr) : Option CStr :=
  if settingOf pair.1 = some s then some pair.2 else none

/-- The direction that a value of `type` names. -/
def typeValue (value : CStr) : Option Int :=
  if strncmpEq value "ingress" value.length then some dirIn
  else if strncmpEq value "egress" value.length then some dirOut
  else if strncmpEq value "map" value.length then some dirMap
  else none

/-- The direction that a pair sets. -/
def directionOf (pair : CStr × CStr) : Option Int :=
  match settingOf pair.1 with
  | some .type => typeValue pair.2
  | some .mapInterface => some dirMap
  | _ => none

section Last

variable {env : Env} {pairs : List (CStr × CStr)} {peer peer' : PeerCtx} {k v : CStr}

theorem typeDirection_eq (value : CStr) (direction : Int) :
    typeDirection value direction = (typeValue value).getD direction := by
  unfold typeDirection typeValue
  split_ifs <;> rfl

/-- If every pair sets a component of the peer to `g` of what it has under `u`, or leaves it alone,
the component ends up with the last such value. -/
theorem applyPairs_lastOf {α β : Type*} {u : CStr × CStr → Option β} {g : β → α}
    (component : PeerCtx → α)
    (hstep : ∀ {k v peer peer'}, applyKey env k v peer = some peer' →
      component peer' = (u (k, v)).elim (component peer) g)
    (h : applyPairs env pairs peer = some peer') :
    component peer' = (lastOf u pairs).elim (component peer) g := by
  induction pairs generalizing peer with
  | nil =>
    cases h
    rfl
  | cons pair pairs ih =>
    rw [applyPairs_cons] at h
    obtain ⟨mid, hmid, hrest⟩ := Option.bind_eq_some_iff.mp h
    rw [ih hrest, hstep hmid, lastOf]
    cases lastOf u pairs <;> rfl

/-- A component that one setting alone sets. -/
theorem applyKey_component {α : Type*} {s : Setting} {g : CStr → α} {component : PeerCtx → α}
    (hset : ∀ t v peer, component (Setting.set env t v peer) =
      if t = s then g v else component peer)
    (h : applyKey env k v peer = some peer') :
    component peer' = (valueFor s (k, v)).elim (component peer) g := by
  rcases applyKey_some h with ⟨hk, rfl⟩ | ⟨t, hk, -, rfl⟩
  · simp [valueFor, hk]
  · rw [hset]
    by_cases ht : t = s
    · simp [valueFor, hk, ht]
    · simp [valueFor, hk, ht]

theorem applyPairs_threads (h : applyPairs env pairs peer = some peer') :
    peer'.threads = (lastOf (valueFor .threads) pairs).elim peer.threads atoi :=
  applyPairs_lastOf PeerCtx.threads (applyKey_component fun _ _ _ => rfl) h

theorem applyPairs_peerip (h : applyPairs env pairs peer = some peer') :
    peer'.peerip = (lastOf (valueFor .peerIp) pairs).elim peer.peerip (hostToIp env) :=
  applyPairs_lastOf PeerCtx.peerip (applyKey_component fun _ _ _ => rfl) h

theorem applyPairs_myip (h : applyPairs env pairs peer = some peer') :
    peer'.myip = (lastOf (valueFor .localIp) pairs).elim peer.myip (hostToIp env) :=
  applyPairs_lastOf PeerCtx.myip (applyKey_component fun _ _ _ => rfl) h

theorem applyKey_direction (h : applyKey env k v peer = some peer') :
    peer'.direction = (directionOf (k, v)).elim peer.direction id := by
  rcases applyKey_some h with ⟨hk, rfl⟩ | ⟨s, hk, -, rfl⟩
  · simp [directionOf, hk]
  · have htype : typeDirection v peer.direction = (typeValue v).elim peer.direction id := by
      rw [typeDirection_eq]
      cases typeValue v <;> rfl
    cases s <;> simp only [directionOf, hk] <;> first | rfl | exact htype

theorem applyPairs_direction (h : applyPairs env pairs peer = some peer') :
    peer'.direction = (lastOf directionOf pairs).elim peer.direction id :=
  applyPairs_lastOf PeerCtx.direction applyKey_direction h

end Last

/-! ## Usable peers

What is asked of a structure: a thread count, a direction, two addresses that the name service gives
for the hosts of the entry, and arrays that end and are empty or as the entry has them. -/

/-- The name service gives the address as one of its IPv4 results for the host. -/
def Env.Resolves (env : Env) (host : CStr) (ip : UInt32) : Prop :=
  ∃ first rest, env.getaddrinfo host = some (first, rest) ∧ .inet ip ∈ first :: rest

/-- The copies into a peer: the one of its name, then those of its pairs. -/
def PeerSpec.copies (p : PeerSpec) : List Copy := ⟨.name, p.name⟩ :: copiesOf p.pairs

/-- The structure holds what the entry says, as far as the set-up of its session relies on it. -/
structure PeerUsable (env : Env) (p : PeerSpec) (peer : PeerCtx) : Prop where
  threads : 1 ≤ peer.threads
  direction : lastOf directionOf p.pairs = some peer.direction
  peerip : ∃ host, lastOf (valueFor .peerIp) p.pairs = some host ∧ env.Resolves host peer.peerip
  myip : ∃ host, lastOf (valueFor .localIp) p.pairs = some host ∧ env.Resolves host peer.myip
  texts : ∀ f ∈ textFields, peer.text.Terminated f.off f.size ∧
    ((peer.str f).val = [] ∨ ∃ v later, lastCopy f p.copies = some (v, later) ∧ peer.str f = v)

/-- The list of peers can be traversed, and its structures, in the order of the file, are usable. -/
structure Usable (env : Env) (specs : List PeerSpec) (ld : Loader) : Prop where
  list : Dlist.Circular ld.mpl 0 (nodes specs.length)
  peers : ∀ k (hk : k < specs.length), PeerUsable env specs[k] (ld.heap (k + 1))

/-! ## What the file has to say

The same in terms of the pairs. `host_to_ip` takes the first result of `getaddrinfo` for an IPv4
address without a look at its family, which is why the resolver is part of the condition. -/

/-- The first result is IPv4, or the flow information of an IPv6 result in front happens to be one
of the IPv4 addresses. -/
def Env.FirstInet (env : Env) (host : CStr) : Prop :=
  match env.getaddrinfo host with
  | none => False
  | some (.inet _, _) => True
  | some (.inet6 flowinfo, rest) => .inet flowinfo ∈ rest

/-- The array is run over behind its last copy, or that copy fits; without a copy it is run over. -/
def FieldFilled (cs : List Copy) (f : Field) : Prop :=
  match lastCopy f cs with
  | some (v, later) => (∃ c ∈ later, c.field.RunsInto f) ∨ v.length < f.room
  | none => ∃ c ∈ cs, c.field.RunsInto f

/-- The entry names a thread count of at least 1, a direction and two hosts whose first results are
IPv4, and fills every array. -/
structure PeerConfigured (env : Env) (p : PeerSpec) : Prop where
  threads : ∃ v, lastOf (valueFor .threads) p.pairs = some v ∧ 1 ≤ atoi v
  direction : ∃ d, lastOf directionOf p.pairs = some d
  peerip : ∃ host, lastOf (valueFor .peerIp) p.pairs = some host ∧ env.FirstInet host
  myip : ∃ host, lastOf (valueFor .localIp) p.pairs = some host ∧ env.FirstInet host
  texts : ∀ f ∈ textFields, FieldFilled p.copies f

structure Configured (env : Env) (specs : List PeerSpec) : Prop where
  nonempty : specs ≠ []
  each : ∀ p ∈ specs, PeerConfigured env p

instance (cs : List Copy) (f : Field) : Decidable (FieldFilled cs f) :=
  match h : lastCopy f cs with
  | some (v, later) => decidable_of_iff
      ((∃ c ∈ later, c.field.RunsInto f) ∨ v.length < f.room) (by rw [FieldFilled, h])
  | none => decidable_of_iff (∃ c ∈ cs, c.field.RunsInto f) (by rw [FieldFilled, h])

section Texts

variable {cs later : List Copy} {f : Field} {v : CStr} {text : Mem}

/-- A value that is not run over is short if its array is filled. -/
theorem FieldFilled.length_lt (h : FieldFilled cs f) (hlast : lastCopy f cs = some (v, later))
    (hruns : ∀ c ∈ later, ¬ c.field.RunsInto f) : v.length < f.room := by
  rw [FieldFilled, hlast] at h
  rcases h with ⟨c, hc, hr⟩ | hlen
  · exact absurd hr (hruns c hc)
  · exact hlen

theorem FieldFilled.holds (hf : f ∈ textFields) (hcs : Known cs)
    (hfilled : ∀ g ∈ textFields, FieldFilled cs g) :
    (copyAll cs text).Terminated f.off f.size ∧
      (((copyAll cs text).str f.off f.size).val = [] ∨
        ∃ v later, lastCopy f cs = some (v, later) ∧ (copyAll cs text).str f.off f.size = v) := by
  have hsize := (Field.room_le hf).2
  have hpos : 0 < f.size := by omega
  have hshort : ∀ g ∈ textFields, g.off < f.off → ∀ u rest, lastCopy g cs = some (u, rest) →
      (∀ c ∈ rest, ¬ c.field.RunsInto g) → u.length < g.room := fun g hg _ _ _ hu hrest =>
    (hfilled g hg).length_lt hu hrest
  -- an array that is run over starts with a NUL
  have hempty : copyAll cs text f.off = 0 → (copyAll cs text).Terminated f.off f.size ∧
      ((copyAll cs text).str f.off f.size).val = [] := fun hzero =>
    ⟨Mem.terminated_iff.mpr ⟨0, hpos, hzero⟩, (Mem.str_eq_nil_iff hpos).mpr hzero⟩
  have h := hfilled f hf
  rw [FieldFilled] at h
  cases hlast : lastCopy f cs with
  | none =>
    rw [hlast] at h
    obtain ⟨hterm, hnil⟩ := hempty
      (@copyAll_runsInto_zero f cs text hf [] hcs (lastCopy_none hlast) h hshort)
    exact ⟨hterm, Or.inl hnil⟩
  | some found =>
    obtain ⟨v, later⟩ := found
    by_cases hruns : ∃ c ∈ later, c.field.RunsInto f
    · obtain ⟨hterm, hnil⟩ := hempty (copyAll_overrun_zero hf hcs hlast hruns hshort)
      exact ⟨hterm, Or.inl hnil⟩
    · have hclear : ∀ c ∈ later, ¬ c.field.RunsInto f := fun c hc hr => hruns ⟨c, hc, hr⟩
      obtain ⟨hstr, hterm⟩ : (copyAll cs text).str f.off f.size = v ∧
          (copyAll cs text).Terminated f.off f.size :=
        copyAll_str hf hcs hlast hclear ((hfilled f hf).length_lt hlast hclear)
      exact ⟨hterm, Or.inr ⟨v, later, rfl, hstr⟩⟩

/-- Over memory without a NUL an array that is terminated, and empty unless it has a copy, is
filled. -/
theorem FieldFilled.of_holds (hf : f ∈ textFields) (hcs : Known cs) (htext : ∀ x, text x ≠ 0)
    (hterm : (copyAll cs text).Terminated f.off f.size)
    (hstr : ((copyAll cs text).str f.off f.size).val = [] ∨
      ∃ v later, lastCopy f cs = some (v, later) ∧ (copyAll cs text).str f.off f.size = v) :
    FieldFilled cs f := by
  have hsize := (Field.room_le hf).2
  rw [FieldFilled]
  cases hlast : lastCopy f cs with
  | none =>
    -- no copy reaches the array, so it holds what `malloc` returned
    by_contra hruns
    have hclear : ∀ c ∈ cs, ¬ c.field.RunsInto f := fun c hc hr => hruns ⟨c, hc, hr⟩
    have hkept : copyAll cs text (f.off + 0) = text (f.off + 0) :=
      copyAll_field hf hcs (lastCopy_none hlast) hclear (by omega)
    rcases hstr with hnil | ⟨v, later, hsome, -⟩
    · rw [Mem.str_eq_nil_iff (by omega)] at hnil
      rw [Nat.add_zero, hnil] at hkept
      exact htext _ hkept.symm
    · rw [hlast] at hsome
      cases hsome
  | some found =>
    obtain ⟨v, later⟩ := found
    by_cases hruns : ∃ c ∈ later, c.field.RunsInto f
    · exact Or.inl hruns
    · have hclear : ∀ c ∈ later, ¬ c.field.RunsInto f := fun c hc hr => hruns ⟨c, hc, hr⟩
      right
      by_contra hlong
      exact copyAll_not_terminated hf hcs hlast hclear (by omega) htext hterm

end Texts

section Peers

variable {env : Env} {p : PeerSpec} {garbage peer : PeerCtx} {id : Nat} {host : CStr}

theorem PeerSpec.copies_known (p : PeerSpec) : Known p.copies := by
  intro c hc
  rcases List.mem_cons.mp hc with rfl | hc
  · show Field.name ∈ textFields
    decide
  · exact copiesOf_known p.pairs c hc

/-- The text of a peer of the file. -/
theorem applyPairs_copies (h : applyPairs env p.pairs (namedPeer garbage id p.name) = some peer) :
    peer.text = copyAll p.copies garbage.text := applyPairs_text h

theorem Env.firstInet_iff : env.FirstInet host ↔ env.Resolves host (hostToIp env host) := by
  unfold Env.FirstInet Env.Resolves hostToIp
  cases hres : env.getaddrinfo host with
  | none => simp
  | some found =>
    obtain ⟨first, rest⟩ := found
    cases first <;> simp [AddrInfo.sinAddr]

/-- What an entry configures is what its peer holds, whatever the memory held before. -/
theorem PeerConfigured.usable (h : PeerConfigured env p)
    (happly : applyPairs env p.pairs (namedPeer garbage id p.name) = some peer) :
    PeerUsable env p peer := by
  obtain ⟨v, hv, hthreads⟩ := h.threads
  obtain ⟨d, hd⟩ := h.direction
  obtain ⟨host, hhost, hinet⟩ := h.peerip
  obtain ⟨host', hhost', hinet'⟩ := h.myip
  exact
    { threads := by
        rw [applyPairs_threads happly, hv]
        exact hthreads
      direction := by
        rw [applyPairs_direction happly, hd]
        rfl
      peerip := ⟨host, hhost, by
        rw [applyPairs_peerip happly, hhost]
        exact Env.firstInet_iff.mp hinet⟩
      myip := ⟨host', hhost', by
        rw [applyPairs_myip happly, hhost']
        exact Env.firstInet_iff.mp hinet'⟩
      texts := fun f hf => by
        rw [PeerCtx.str, applyPairs_copies happly]
        exact FieldFilled.holds hf p.copies_known h.texts }

/-- A structure without a thread and without a NUL. -/
def fullStructure : PeerCtx := ⟨0, 0, 0, 0, 0, 0, fun _ => 1⟩

/-- A peer that is usable although its memory was like that was configured. -/
theorem PeerUsable.configured (h : PeerUsable env p peer)
    (happly : applyPairs env p.pairs (namedPeer fullStructure id p.name) = some peer) :
    PeerConfigured env p := by
  obtain ⟨host, hhost, hres⟩ := h.peerip
  obtain ⟨host', hhost', hres'⟩ := h.myip
  rw [applyPairs_peerip happly, hhost] at hres
  rw [applyPairs_myip happly, hhost'] at hres'
  refine ⟨?_, ⟨_, h.direction⟩, ⟨host, hhost, Env.firstInet_iff.mpr hres⟩,
    ⟨host', hhost', Env.firstInet_iff.mpr hres'⟩, fun f hf => ?_⟩
  · have hthreads := h.threads
    rw [applyPairs_threads happly] at hthreads
    cases hv : lastOf (valueFor .threads) p.pairs with
    | none =>
      rw [hv] at hthreads
      -- no pair set the count, so it is that of the structure
      exact absurd (show (1 : Int) ≤ 0 from hthreads) (by decide)
    | some v =>
      rw [hv] at hthreads
      exact ⟨v, rfl, hthreads⟩
  · obtain ⟨hterm, hstr⟩ := h.texts f hf
    rw [applyPairs_copies happly] at hterm
    rw [PeerCtx.str, applyPairs_copies happly] at hstr
    exact FieldFilled.of_holds hf p.copies_known (fun _ => show (1 : UInt8) ≠ 0 by decide) hterm
      hstr

end Peers

/-! ## Loaded files

A file that is loaded has a reading (`LoadConfig.loads`), and with it the abstract peers, whose
structures the loader leaves in the list. -/

/-- `load_config` returns 0 on the file and starts the peers `specs`. -/
def Loads (env : Env) (file : ConfigFile) (ld₀ : Loader) (specs : List PeerSpec) : Prop :=
  file.opened = true ∧ ∃ ts evs, ts <+: file.stream.delivered ∧
    Reading .stream ts evs .finished ∧ ld₀.seg.AcceptsAll env ld₀.spare evs ∧
      (ld₀.seg.events ld₀.spare evs).peers = specs.reverse

section Loads

variable {env : Env} {file : ConfigFile} {ld₀ ld : Loader} {specs : List PeerSpec}

/-- Every file on which `load_config` returns 0 starts some peers. -/
theorem LoadConfig.loads (h₀ : ld₀.Start) (h : LoadConfig env file ld₀ (.returned ld)) :
    ∃ specs, Loads env file ld₀ specs := by
  obtain ⟨hopen, n, hrun⟩ := h
  obtain ⟨ts, evs, hpre, ⟨hread, ld', hevs, -⟩ | ⟨-, -, hdied⟩⟩ := reading_of_run hrun
  · exact ⟨_, hopen, ts, evs, hpre, hread, h₀.follows.events_isSome.mp ⟨ld', hevs⟩,
      (List.reverse_reverse _).symm⟩
  · cases hdied

/-- The list and the structures that the loader leaves, whatever `malloc` returned. -/
theorem Loads.returned (h₀ : ld₀.Start) (h : Loads env file ld₀ specs) (heap : Nat → PeerCtx) :
    ∃ ld, LoadConfig env file { ld₀ with heap := heap } (.returned ld) ∧
      (specs = [] → ld.mpl.next 0 = none) ∧
      (specs ≠ [] → Dlist.Circular ld.mpl 0 (nodes specs.length) ∧
        InHeap env heap ld.heap specs.reverse) := by
  obtain ⟨hopen, ts, evs, ⟨rest, hrest⟩, hread, hacc, hpeers⟩ := h
  have h₁ : ({ ld₀ with heap := heap } : Loader).Start := { h₀ with }
  obtain ⟨ld, hld⟩ := h₁.follows.events_isSome.mpr hacc
  have hfollows := h₁.follows.events hld
  obtain ⟨n, hn⟩ := Reading.run env rest { ld₀ with heap := heap } hread (Or.inl rfl)
  rw [hld, hrest] at hn
  refine ⟨ld.finish, ⟨hopen, n, hn⟩, fun hnil => ?_, fun hne => ?_⟩
  · refine (hfollows.finish_nil ?_).1
    show (ld₀.seg.events ld₀.spare evs).peers = []
    rw [hpeers, hnil]
    rfl
  · have hpeers' : (ld₀.seg.events ld₀.spare evs).peers ≠ [] := by
      rw [hpeers]
      simpa using hne
    obtain ⟨hcirc, hheap⟩ := hfollows.finish hpeers'
    have hin := hfollows.heap
    have hcirc' : Dlist.Circular ld.finish.mpl 0
        (nodes (ld₀.seg.events ld₀.spare evs).peers.length) := hcirc
    have hin' : InHeap env heap ld.heap (ld₀.seg.events ld₀.spare evs).peers := hin
    rw [hpeers] at hcirc' hin'
    rw [List.length_reverse] at hcirc'
    rw [hheap]
    exact ⟨hcirc', hin'⟩

end Loads

/-- **Usable peers.** The peers of a file that is loaded are usable, whatever `malloc` returned,
exactly if the file configures them. -/
theorem usable_iff {env : Env} {file : ConfigFile} {ld₀ : Loader} {specs : List PeerSpec}
    (h₀ : ld₀.Start) (hload : Loads env file ld₀ specs) :
    (∀ heap ld, LoadConfig env file { ld₀ with heap := heap } (.returned ld) →
      Usable env specs ld) ↔ Configured env specs := by
  constructor
  · intro hall
    obtain ⟨ld, hret, hnil, hsome⟩ := hload.returned h₀ fun _ => fullStructure
    have husable := hall _ ld hret
    have hne : specs ≠ [] := fun hspecs => by
      -- the head of a list that was never initialised
      have hnext := husable.list.next
      rw [hspecs] at hnext
      cases (hnil hspecs).symm.trans hnext
    refine ⟨hne, fun p hp => ?_⟩
    obtain ⟨k, hk, rfl⟩ := List.getElem_of_mem hp
    exact (husable.peers k hk).configured ((hsome hne).2.getElem hk)
  · intro hconf heap ld hret
    obtain ⟨ld', hret', -, hsome⟩ := hload.returned h₀ heap
    obtain rfl : ld' = ld := by
      cases hret'.unique hret
      rfl
    obtain ⟨hcirc, hin⟩ := hsome hconf.nonempty
    exact ⟨hcirc, fun k hk => (hconf.each _ (List.getElem_mem hk)).usable (hin.getElem hk)⟩

/-! ## An entry that configures everything

All arrays need a copy, or another copy that runs into them; most of the keys below are there for
that. -/

/-- A name service for the two hosts of `sample.yaml`. -/
def twoHosts : Env where
  getaddrinfo host :=
    if host = "192.168.117.224" then some (.inet 0xe075a8c0, [])
    else if host = "192.168.117.220" then some (.inet 0xdc75a8c0, [])
    else none

def fullEntry : PeerEntry where
  name := "texas-in"
  pairs := [("type", "ingress"), ("interface", "eth1"), ("tunnel", "tap0"),
    ("peer-ip", "192.168.117.224"), ("local-ip", "192.168.117.220"),
    ("next-hop", "192.168.117.223"), ("cipher", "aes256"), ("key", "secretpass"),
    ("socket", "none"), ("pipe", "none"), ("threads", "1")]
  short := by decide
  documented := by decide

def fullFile : SampleFile where
  heading := []
  headed := List.forall_mem_nil _
  global := ⟨[⟨[("name", "testing123")], List.cons_ne_nil _ _⟩], List.cons_ne_nil _ _⟩
  before := none
  peers := [fullEntry]
  nonempty := List.cons_ne_nil _ _
  behind := none
  trailer := []
  trailed := List.forall_mem_nil _

theorem SampleFile.loads {env : Env} {ld₀ : Loader} (file : SampleFile)
    (haccept : ∀ e ∈ file.peers, e.Accepted env) :
    Loads env file.document.file ld₀ (file.peers.map PeerEntry.spec) := by
  obtain ⟨hpeers, hacc⟩ := file.events ld₀.spare ld₀.seg rfl haccept
  exact ⟨rfl, _, _, List.prefix_rfl, file.document.reading, hacc, hpeers⟩

theorem fullEntry_configured : PeerConfigured twoHosts fullEntry.spec where
  threads := ⟨"1", by decide, by decide⟩
  direction := ⟨dirIn, by decide⟩
  peerip := ⟨"192.168.117.224", by decide, trivial⟩
  myip := ⟨"192.168.117.220", by decide, trivial⟩
  texts := by decide

theorem usable_fullFile :
    ∃ ld, LoadConfig twoHosts fullFile.document.file (blankLoader 65) (.returned ld) ∧
      Usable twoHosts (fullFile.peers.map PeerEntry.spec) ld := by
  have h₀ := blankLoader_start 65
  have hload : Loads twoHosts fullFile.document.file (blankLoader 65)
      (fullFile.peers.map PeerEntry.spec) := fullFile.loads (by decide)
  obtain ⟨ld, hret, -⟩ := hload.returned h₀ (blankLoader 65).heap
  refine ⟨ld, hret, (usable_iff h₀ hload).mpr ⟨by decide, fun p hp => ?_⟩ _ ld hret⟩
  obtain rfl := List.mem_singleton.mp hp
  exact fullEntry_configured

/-- A file without a token between the ends of its stream. -/
def emptyFile : ConfigFile where
  opened := true
  stream :=
    { tokens := [.streamStart]
      inside := by decide
      ended := true }

/-- Without a peer `MPL` is never initialised. -/
theorem usable_fails :
    ¬ ∀ (env : Env) (file : ConfigFile) (ld₀ : Loader) (specs : List PeerSpec), ld₀.Start →
      Loads env file ld₀ specs → ∀ heap ld,
        LoadConfig env file { ld₀ with heap := heap } (.returned ld) → Usable env specs ld := by
  intro hall
  have hstart : Reads .stream [.streamStart] [] (.head .stream) := .other (by simp) (by simp)
  have hend : Reads .stream [.streamEnd] [] .finished := .other (by simp) (by simp)
  have hloads : Loads offline emptyFile (blankLoader 0) [] :=
    ⟨rfl, [.streamStart, .streamEnd], [], List.prefix_rfl, .step hstart (.one hend), trivial, rfl⟩
  obtain ⟨ld, hret, hnil, -⟩ := hloads.returned (blankLoader_start 0) fun _ => fullStructure
  have hnext := (hall _ _ _ _ (blankLoader_start 0) hloads _ ld hret).list.next
  cases (hnil rfl).symm.trans hnext

end Lanes
