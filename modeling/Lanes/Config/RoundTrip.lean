import Lanes.Lib.Decimal
import Lanes.Config.Usable
import Lanes.Config.Words

/-!
# Peers, written down and loaded

Peers as they are meant (`PeerConf`), the entries that say so (`PeerConf.entry`), and what
`load_config` makes of a file with these entries: the same peers in the same order.

* The entries have their keys in the order of the arrays, since a copy of an interface name runs
  into the arrays behind its own, and `type` behind `map-interface`, which sets the direction as
  well.
* A peer has to be one that can be loaded (`PeerValues.Known`): its `peer-ip` and `local-ip`
  resolve, and not to 0. A file has at least one peer (`SampleFile.nonempty`).
* `PeerConf.Holds` says what a structure in memory has of a peer, and `config_roundTrip` that the
  k-th structure of the list has it of the k-th peer.
-/

namespace Lanes

/-! ## Peers and their entries

A value may be any string that its array takes. A key without a value is not written down, and its
array then stays empty if the memory for the structure had it empty.
-/

/-- The values of `type`. -/
inductive Role where
  | ingress
  | egress
  | map
  deriving DecidableEq

def Role.word : Role → CStr
  | .ingress => "ingress"
  | .egress => "egress"
  | .map => "map"

def Role.direction : Role → Int
  | .ingress => dirIn
  | .egress => dirOut
  | .map => dirMap

/-- What is meant by a peer. A key without a value is left out of its entry. -/
structure PeerValues where
  name : CStr
  role : Role
  v6 : Bool
  threads : Nat
  interface : Option CStr
  tunnel : Option CStr
  mapInterface : Option CStr
  peerIp : Option CStr
  localIp : Option CStr
  nextHop : Option CStr
  cipher : Option CStr
  socket : Option CStr
  pipe : Option CStr
  key : Option CStr

/-- The value behind a key. -/
def PeerValues.value (c : PeerValues) : Setting → Option CStr
  | .type => some c.role.word
  | .ipVersion => some (if c.v6 then "6" else "4")
  | .threads => some (decimal c.threads)
  | .interface => c.interface
  | .tunnel => c.tunnel
  | .mapInterface => c.mapInterface
  | .peerIp => c.peerIp
  | .localIp => c.localIp
  | .nextHop => c.nextHop
  | .cipher => c.cipher
  | .socket => c.socket
  | .pipe => c.pipe
  | .key => c.key

/-- A peer whose values the fields can hold. -/
structure PeerConf extends PeerValues where
  short : name.length < 255
  threads_pos : 1 ≤ threads
  threads_lt : threads < 2 ^ 31
  fits : ∀ s f n v, s.field = some (f, n) → toPeerValues.value s = some v → v.length < f.room

/-- The keys of an entry in their order. -/
def writtenOrder : List Setting :=
  [.interface, .tunnel, .mapInterface, .peerIp, .localIp, .nextHop, .cipher, .socket, .pipe, .key,
    .type, .ipVersion, .threads]

/-- The pairs of an entry, of those keys that have a value. -/
def PeerValues.pairs (c : PeerValues) (ss : List Setting) : List (CStr × CStr) :=
  ss.filterMap fun s => (c.value s).map fun v => (s.word, v)

theorem PeerValues.mem_pairs {c : PeerValues} {ss : List Setting} {p : CStr × CStr}
    (h : p ∈ c.pairs ss) : ∃ s ∈ ss, ∃ v, c.value s = some v ∧ p = (s.word, v) := by
  obtain ⟨s, hs, hp⟩ := List.mem_filterMap.mp h
  obtain ⟨v, hv, rfl⟩ := Option.map_eq_some_iff.mp hp
  exact ⟨s, hs, v, hv, rfl⟩

theorem Setting.word_documented (s : Setting) : s.word ∈ documentedKeys := by cases s <;> decide

def PeerConf.entry (c : PeerConf) : PeerEntry where
  name := c.name
  pairs := c.pairs writtenOrder
  short := c.short
  documented p hp := by
    obtain ⟨s, -, v, -, rfl⟩ := PeerValues.mem_pairs hp
    exact s.word_documented

/-- The name service knows the two hosts. -/
def PeerValues.Known (c : PeerValues) (env : Env) : Prop :=
  ∀ host, c.peerIp = some host ∨ c.localIp = some host → hostToIp env host ≠ 0

/-- The structure holds what is meant by the peer. A field without a value is empty where the memory
was. -/
structure PeerConf.Holds (c : PeerConf) (env : Env) (garbage peer : PeerCtx) : Prop where
  name : peer.str .name = c.name
  direction : peer.direction = c.role.direction
  ipVersion : peer.ipVersion = if c.v6 then 6 else 4
  threads : peer.threads = c.threads
  peerip : ∀ host, c.peerIp = some host → peer.peerip = hostToIp env host
  myip : ∀ host, c.localIp = some host → peer.myip = hostToIp env host
  set : ∀ s f n v, s.field = some (f, n) → c.value s = some v → peer.str f = v
  unset : ∀ s f n, s.field = some (f, n) → c.value s = none → garbage.text f.off = 0 →
    peer.text f.off = 0

/-! ## The last pair for a key

The structure has of each key the last value that was given for it (`Config.Fields`). An entry gives
a key once or not at all.
-/

section Pairs

variable {c : PeerValues} {env : Env} {ss : List Setting} {s : Setting} {f : Field} {n : Nat}
  {v : CStr}

theorem lastOf_append {β : Type*} (u : CStr × CStr → Option β) (xs ys : List (CStr × CStr)) :
    lastOf u (xs ++ ys) = (lastOf u ys).or (lastOf u xs) := by
  induction xs with
  | nil => simp [lastOf]
  | cons x xs ih => rw [List.cons_append, lastOf, ih, lastOf, Option.or_assoc]

theorem mem_writtenOrder (s : Setting) : s ∈ writtenOrder := by cases s <;> decide

/-- The last pair for a key is the one of that key. -/
theorem PeerValues.lastOf_pairs (c : PeerValues) (s : Setting) (ss : List Setting)
    (hnodup : ss.Nodup) :
    lastOf (valueFor s) (c.pairs ss) = if s ∈ ss then c.value s else none := by
  induction ss with
  | nil => rfl
  | cons t ss ih =>
    obtain ⟨ht, hnodup⟩ := List.nodup_cons.mp hnodup
    have hsplit : c.pairs (t :: ss) = (c.pairs [t]) ++ c.pairs ss :=
      List.filterMap_append (l := [t])
    have hone : lastOf (valueFor s) (c.pairs [t]) = if t = s then c.value s else none := by
      cases hv : c.value t with
      | none =>
        have hnil : c.pairs [t] = [] := by simp [PeerValues.pairs, hv]
        rw [hnil]
        split
        · rename_i he
          rw [← he, hv]
          rfl
        · rfl
      | some v =>
        have hpair : c.pairs [t] = [(t.word, v)] := by simp [PeerValues.pairs, hv]
        simp only [hpair, lastOf, valueFor, settingOf_word, Option.some_inj, Option.none_or]
        refine ite_congr rfl (fun he => ?_) (fun _ => rfl)
        rw [← he, hv]
    rw [hsplit, lastOf_append, ih hnodup, hone]
    by_cases hts : t = s
    · subst hts
      simp [ht]
    · by_cases hmem : s ∈ ss
      · simp [hmem, hts]
      · simp [hmem, hts, Ne.symm hts]

theorem PeerValues.lastOf_written (c : PeerValues) (s : Setting) :
    lastOf (valueFor s) (c.pairs writtenOrder) = c.value s := by
  rw [c.lastOf_pairs s writtenOrder (by decide), if_pos (mem_writtenOrder s)]

/-- `type` has the last word on the direction. -/
theorem PeerValues.lastOf_direction (c : PeerValues) :
    lastOf directionOf (c.pairs writtenOrder) = some c.role.direction := by
  have hsplit : c.pairs writtenOrder =
      c.pairs (writtenOrder.take 10) ++ c.pairs [.type, .ipVersion, .threads] :=
    List.filterMap_append (l := writtenOrder.take 10)
  have hpairs : c.pairs [.type, .ipVersion, .threads] =
      [(Setting.type.word, c.role.word),
        (Setting.ipVersion.word, if c.v6 then "6" else "4"),
        (Setting.threads.word, decimal c.threads)] := rfl
  have hrole : typeValue c.role.word = some c.role.direction := by
    cases c.role <;> decide
  rw [hsplit, lastOf_append, hpairs]
  simp only [lastOf, directionOf, settingOf_word, hrole, Option.none_or, Option.some_or]

/-- Every pair is accepted. -/
theorem PeerConf.accepted {c : PeerConf} (hknown : c.Known env) : c.entry.Accepted env := by
  intro p hp s hs hrefuse
  obtain ⟨t, -, v, hv, rfl⟩ := PeerValues.mem_pairs hp
  obtain rfl : t = s := Option.some.inj ((settingOf_word t).symm.trans hs)
  cases t with
  | ipVersion =>
    obtain rfl : (if c.v6 then ("6" : CStr) else "4") = v := Option.some.inj hv
    obtain ⟨h4, h6⟩ := hrefuse
    cases hv6 : c.v6 with
    | false =>
      rw [hv6] at h4
      exact absurd h4 (by decide)
    | true =>
      rw [hv6] at h6
      exact absurd h6 (by decide)
  | peerIp => exact hknown v (Or.inl hv) hrefuse
  | localIp => exact hknown v (Or.inr hv) hrefuse
  | _ => exact hrefuse

/-! ## The arrays

A copy into an array that stands in front of this one may run into it. In the order in which entries
are written such a copy comes first, so the value of the array itself is what stays.
-/

theorem copyOf_word (s : Setting) (v : CStr) :
    copyOf (s.word, v) = s.field.map fun fn => ⟨fn.1, v⟩ := by
  rw [copyOf, settingOf_word, Option.bind_some]

/-- The copies of the pairs are into the arrays of their keys. -/
theorem PeerValues.mem_copies {c : PeerValues} {ss : List Setting} {cp : Copy}
    (h : cp ∈ copiesOf (c.pairs ss)) :
    ∃ s ∈ ss, ∃ n, s.field = some (cp.field, n) ∧ c.value s = some cp.value := by
  obtain ⟨p, hp, hcopy⟩ := List.mem_filterMap.mp h
  obtain ⟨s, hs, v, hv, rfl⟩ := PeerValues.mem_pairs hp
  rw [copyOf_word] at hcopy
  obtain ⟨⟨f, n⟩, hf, rfl⟩ := Option.map_eq_some_iff.mp hcopy
  exact ⟨s, hs, n, hf, hv⟩

/-- No copy runs into an array in front of its own. -/
theorem writtenOrder_clear : writtenOrder.Pairwise fun s t =>
    s ≠ t ∧ ∀ fn ∈ s.field.toList, ∀ gm ∈ t.field.toList, ¬ gm.1.RunsInto fn.1 := by
  decide

/-- The copy of a value is the last one into its array, and nothing runs into it. -/
theorem PeerValues.lastCopy_pairs (c : PeerValues) (hf : s.field = some (f, n))
    (hv : c.value s = some v) :
    ∃ later, lastCopy f (copiesOf (c.pairs writtenOrder)) = some (v, later) ∧
      ∀ cp ∈ later, ¬ cp.field.RunsInto f := by
  obtain ⟨before, after, horder⟩ := List.append_of_mem (mem_writtenOrder s)
  have hclear := writtenOrder_clear
  rw [horder] at hclear
  have hbehind := (List.pairwise_cons.mp (List.pairwise_append.mp hclear).2.1).1
  have hcopies : copiesOf (c.pairs writtenOrder) =
      copiesOf (c.pairs before) ++ ⟨f, v⟩ :: copiesOf (c.pairs after) := by
    rw [horder, PeerValues.pairs, List.filterMap_append, copiesOf, List.filterMap_append,
      List.filterMap_cons_some (b := (s.word, v)) (by rw [hv]; rfl),
      List.filterMap_cons_some (b := ⟨f, v⟩) (by rw [copyOf_word, hf]; rfl)]
    rfl
  refine ⟨copiesOf (c.pairs after), ?_, fun cp hcp hruns => ?_⟩
  · rw [hcopies]
    refine lastCopy_of_last fun cp hcp he => ?_
    obtain ⟨t, ht, m, htf, -⟩ := PeerValues.mem_copies hcp
    exact (hbehind t ht).1 (Setting.field_inj hf (he ▸ htf))
  · obtain ⟨t, ht, m, htf, -⟩ := PeerValues.mem_copies hcp
    exact (hbehind t ht).2 (f, n) (by simp [hf]) (cp.field, m) (by simp [htf]) hruns

/-- Every value fits into its array. -/
theorem PeerConf.lastCopy_lt {c : PeerConf} {later : List Copy}
    (h : lastCopy f (copiesOf (c.pairs writtenOrder)) = some (v, later)) : v.length < f.room := by
  obtain ⟨⟨before, hsplit⟩, -⟩ := lastCopy_some h
  have hmem : (⟨f, v⟩ : Copy) ∈ copiesOf (c.pairs writtenOrder) := by
    rw [hsplit]
    simp
  obtain ⟨s, -, n, hf, hv⟩ := PeerValues.mem_copies hmem
  exact c.fits s f n v hf hv

/-- An array without a value that was empty stays so, run over or not. -/
theorem PeerConf.copyAll_unset {c : PeerConf} (hf : s.field = some (f, n))
    (hv : c.value s = none) {text : Mem} (hzero : text f.off = 0) :
    copyAll (copiesOf (c.pairs writtenOrder)) text f.off = 0 := by
  have hfield := (Setting.field_known hf).1
  have hknown := copiesOf_known (c.pairs writtenOrder)
  have hother : ∀ cp ∈ copiesOf (c.pairs writtenOrder), cp.field ≠ f := fun cp hcp he => by
    obtain ⟨t, -, m, htf, htv⟩ := PeerValues.mem_copies hcp
    obtain rfl : s = t := Setting.field_inj hf (he ▸ htf)
    rw [hv] at htv
    cases htv
  by_cases hruns : ∃ cp ∈ copiesOf (c.pairs writtenOrder), cp.field.RunsInto f
  · have hempty : copyAll ([] ++ copiesOf (c.pairs writtenOrder)) text f.off = 0 :=
      copyAll_runsInto_zero hfield hknown hother hruns
        fun g _ _ u rest hu _ => PeerConf.lastCopy_lt hu
    exact hempty
  · have hkept : copyAll (copiesOf (c.pairs writtenOrder)) text (f.off + 0) = text (f.off + 0) :=
      copyAll_field hfield hknown hother (fun cp hcp hr => hruns ⟨cp, hcp, hr⟩)
        (Nat.lt_of_lt_of_le (by decide) (Field.two_le_size hfield))
    exact hkept.trans hzero

theorem applyPairs_ipVersion {pairs : List (CStr × CStr)} {peer peer' : PeerCtx}
    (h : applyPairs env pairs peer = some peer') :
    peer'.ipVersion = (lastOf (valueFor .ipVersion) pairs).elim peer.ipVersion
      fun v => if strncmpEq v "4" v.length then 4 else 6 :=
  applyPairs_lastOf PeerCtx.ipVersion (applyKey_component fun _ _ _ => rfl) h

/-- What the pairs of an entry make of a fresh structure. -/
theorem PeerConf.holds {c : PeerConf} {garbage peer : PeerCtx} {node : Nat}
    (h : applyPairs env c.entry.pairs (namedPeer garbage node c.name) = some peer) :
    c.Holds env garbage peer where
  name := (applyPairs_name h).2.trans (namedPeer_name c.short)
  direction := by
    rw [applyPairs_direction h]
    show (lastOf directionOf (c.pairs writtenOrder)).elim _ id = _
    rw [c.lastOf_direction]
    rfl
  ipVersion := by
    rw [applyPairs_ipVersion h]
    show (lastOf (valueFor .ipVersion) (c.pairs writtenOrder)).elim _ _ = _
    rw [c.lastOf_written]
    show (if _ then _ else _) = _
    cases c.v6 <;> decide
  threads := by
    rw [applyPairs_threads h]
    show (lastOf (valueFor .threads) (c.pairs writtenOrder)).elim _ atoi = _
    rw [c.lastOf_written]
    exact atoi_decimal c.threads_lt
  peerip host hhost := by
    rw [applyPairs_peerip h]
    show (lastOf (valueFor .peerIp) (c.pairs writtenOrder)).elim _ _ = _
    rw [c.lastOf_written, show c.value .peerIp = some host from hhost]
    rfl
  myip host hhost := by
    rw [applyPairs_myip h]
    show (lastOf (valueFor .localIp) (c.pairs writtenOrder)).elim _ _ = _
    rw [c.lastOf_written, show c.value .localIp = some host from hhost]
    rfl
  set s f n v hf hv := by
    obtain ⟨later, hlast, hclear⟩ := c.lastCopy_pairs hf hv
    rw [PeerCtx.str, applyPairs_text h]
    exact (copyAll_str (Setting.field_known hf).1 (copiesOf_known _) hlast hclear
      (c.fits s f n v hf hv)).1
  unset s f n hf hv hzero := by
    rw [applyPairs_text h]
    refine c.copyAll_unset hf hv ?_
    -- the name is copied in front of the other arrays
    have hoff := Setting.field_off hf
    show (garbage.text.strncpy 0 c.name 255) f.off = 0
    rw [Mem.strncpy_apply_of_ge (by omega), hzero]

end Pairs

/-! ## The file

What holds of one structure is taken along the list of peers, which has them in the order of the
file when it is traversed backwards.
-/

section File

variable {env : Env} {confs : List PeerConf} {file : SampleFile} {ld₀ : Loader}

theorem loads_confs (hpeers : file.peers = confs.map PeerConf.entry)
    (hknown : ∀ c ∈ confs, c.Known env) :
    Loads env file.document.file ld₀ (confs.map fun c => c.entry.spec) := by
  have haccept : ∀ e ∈ file.peers, e.Accepted env := by
    intro e he
    rw [hpeers] at he
    obtain ⟨c, hc, rfl⟩ := List.mem_map.mp he
    exact c.accepted (hknown c hc)
  have hloads : Loads env file.document.file ld₀ (file.peers.map PeerEntry.spec) :=
    file.loads haccept
  rwa [hpeers, List.map_map] at hloads

/-- The k-th structure is that of the k-th peer. -/
theorem InHeap.holds {garbage heap : Nat → PeerCtx}
    (h : InHeap env garbage heap (confs.map fun c => c.entry.spec).reverse) {k : Nat}
    (hk : k < confs.length) : confs[k].Holds env (garbage (k + 1)) (heap (k + 1)) := by
  have happly := h.getElem (k := k) (by rwa [List.length_map])
  simp only [List.getElem_map] at happly
  exact PeerConf.holds happly

/-- **Round trip of the configuration.** A file whose entries are those of the peers `confs` is
loaded, and the list of peers, traversed as the set-up traverses it, has a structure for each of
them, in their order, that holds what was meant. -/
theorem config_roundTrip (hpeers : file.peers = confs.map PeerConf.entry)
    (hknown : ∀ c ∈ confs, c.Known env) (h₀ : ld₀.Start) :
    ∃ ld ids, LoadConfig env file.document.file ld₀ (.returned ld) ∧
      ld.mpl.forEachPrev 0 (confs.length + 1) = some ids ∧
      List.Forall₂ (fun c i => c.Holds env (ld₀.heap i) (ld.heap i)) confs ids := by
  have hne : confs.map (fun c => c.entry.spec) ≠ [] := fun hnil =>
    file.nonempty (by rw [hpeers, List.map_eq_nil_iff.mp hnil, List.map_nil])
  obtain ⟨ld, hload, -, hlisted⟩ := (loads_confs hpeers hknown).returned h₀ ld₀.heap
  obtain ⟨hcirc, hheap⟩ := hlisted hne
  rw [List.length_map] at hcirc
  refine ⟨ld, List.range' 1 confs.length, hload, ?_, ?_⟩
  · rw [hcirc.forEachPrev (by rw [nodes_length]; omega), nodes_reverse]
  · refine List.forall₂_iff_get.mpr ⟨by simp, fun k hk hk' => ?_⟩
    simp only [List.get_eq_getElem, List.getElem_range'_1, Nat.add_comm 1 k]
    exact hheap.holds hk

end File

/-- The peers of `sample.yaml`, and those of `sample-remote.yaml`. -/
def texas (remote : Bool) (name : CStr) (role : Role) (hname : name.length < 255) : PeerConf where
  name := name
  role := role
  v6 := false
  threads := 1
  interface := some (if remote then "jotho0" else "eth1")
  tunnel := some (if remote then "stringtap0" else "tap0")
  mapInterface := none
  peerIp := some (if remote then "192.168.117.220" else "192.168.117.224")
  localIp := some (if remote then "192.168.117.224" else "192.168.117.220")
  nextHop := some (if remote then "192.168.117.220" else "192.168.117.223")
  cipher := some "aes256"
  socket := none
  pipe := none
  key := some "secretpass"
  short := hname
  threads_pos := Nat.le_refl 1
  threads_lt := by decide
  fits s f n v hf hv := by cases remote <;> cases s <;> cases hf <;> cases hv <;> decide

theorem texasIn_short : CStr.length "texas-in" < 255 := by decide

theorem texasOut_short : CStr.length "texas-out" < 255 := by decide

def texasIn (remote : Bool) : PeerConf := texas remote "texas-in" .ingress texasIn_short

def texasOut (remote : Bool) : PeerConf := texas remote "texas-out" .egress texasOut_short

def sampleYaml (remote : Bool) : SampleFile :=
  { fullFile with
    peers := [(texasIn remote).entry, (texasOut remote).entry]
    nonempty := List.cons_ne_nil _ _ }

theorem texas_known {remote : Bool} {c : PeerConf} (hc : c ∈ [texasIn remote, texasOut remote]) :
    c.Known twoHosts := by
  intro host hhost
  have hip : host = "192.168.117.220" ∨ host = "192.168.117.224" := by
    rcases List.mem_cons.mp hc with rfl | hc
    · cases remote <;> rcases hhost with h | h <;> cases h <;> simp
    · obtain rfl := List.mem_singleton.mp hc
      cases remote <;> rcases hhost with h | h <;> cases h <;> simp
  rcases hip with rfl | rfl <;> decide

theorem config_roundTrip_sampleYaml :
    ∃ ld ids, LoadConfig twoHosts (sampleYaml false).document.file (blankLoader 65)
        (.returned ld) ∧
      ld.mpl.forEachPrev 0 3 = some ids ∧
      List.Forall₂ (fun c i => c.Holds twoHosts ((blankLoader 65).heap i) (ld.heap i))
        [texasIn false, texasOut false] ids := by
  have hpeers : (sampleYaml false).peers =
      [texasIn false, texasOut false].map PeerConf.entry := rfl
  exact config_roundTrip hpeers (fun _ => texas_known) (blankLoader_start 65)

end Lanes
