import Lanes.Config.Usable
import Lanes.Config.Segment

/-!
# Which words the loader knows

`load_config` compares words by `strncmp` with three kinds of length: that of the key or the value
read, that of the literal, and a constant. Only the last kind tells a word from its proper prefixes
and from its extensions. When a pair is told from the documented ones is a condition on the two
strings, the section and the names of the peers.

## The idea

With the length of a word as its count `strncmp` is a prefix test: `v.Extends w` says that `v` goes
on behind `w`, and every comparison of the loader becomes a statement of this kind
(`Setting.test_iff`, `entryValue_atKey`). A key that is tested by its own length may be any prefix
of the word, one that is tested by the length of the word may be any extension.

**`wordsExact_iff`** states when a section and a pair are matched exactly, for any state of the
loader: whichever section came before, and whatever the peers hold. The two halves are
`sectionExact_iff` and `pairExact_iff`; the work in both is to find, for a word that is not told
apart, contents of the peers that its setting changes (`exists_set_ne`).
-/

namespace Lanes

/-! ## Prefixes of what was read

A string is cut when it is copied into an array; for words that are short enough the comparison does
not notice. -/

/-- A copy that is shorter than the array is the string. -/
theorem eq_of_clip_short {last : UInt8} {s : CStr} (h : (clip last s).length < 255) :
    clip last s = s := by
  refine clip_of_short (Nat.lt_of_not_le fun hlong => ?_)
  have htake : (clip last s).val.take 255 = s.val.take 255 := clip_take (Nat.le_refl 255)
  have hlen := congrArg List.length htake
  simp only [List.length_take, CStr.length] at hlen h hlong
  omega

theorem extends_clip_iff {last : UInt8} {s w : CStr} (hw : w.length < 255) :
    w.Extends (clip last s) ↔ w.Extends s := by
  constructor <;> intro h
  · rwa [eq_of_clip_short (Nat.lt_of_le_of_lt h.length_le hw)] at h
  · rwa [clip_of_short (Nat.lt_of_le_of_lt h.length_le hw)]

theorem clip_extends_iff {last : UInt8} {s w : CStr} (hw : w.length ≤ 255) :
    (clip last s).Extends w ↔ s.Extends w := by
  have htake : (clip last s).val.take w.val.length = s.val.take w.val.length := clip_take hw
  rw [CStr.Extends, CStr.Extends, List.prefix_iff_eq_take, List.prefix_iff_eq_take, htake]

theorem clip_eq_iff {last : UInt8} {s w : CStr} (hw : w.length < 255) :
    clip last s = w ↔ s = w := by
  constructor <;> intro h
  · rw [← h]
    exact (eq_of_clip_short (by rw [h]; exact hw)).symm
  · rw [h]
    exact clip_of_short hw

/-! ## The keys of a peer

The branches of `load_config` in their order, each with its word and the length it compares. Of two
words none extends the other, so that at most one branch is taken by a whole word. -/

namespace Setting

/-- The documented key. -/
def word : Setting → CStr
  | .type => "type"
  | .ipVersion => "ip-version"
  | .threads => "threads"
  | .interface => "interface"
  | .mapInterface => "map-interface"
  | .tunnel => "tunnel"
  | .peerIp => "peer-ip"
  | .nextHop => "next-hop"
  | .localIp => "local-ip"
  | .cipher => "cipher"
  | .key => "key"
  | .socket => "socket"
  | .pipe => "pipe"

/-- The key is compared as far as it goes, not with the length of an interface name. -/
def byLength : Setting → Bool
  | .threads | .interface | .mapInterface | .tunnel => false
  | _ => true

/-- The comparison of the setting's branch. -/
def test (key : CStr) (s : Setting) : Bool :=
  strncmpEq key s.word (if s.byLength then key.length else ifNamSiz)

/-- The branches in their order. -/
def all : List Setting :=
  [.type, .ipVersion, .threads, .interface, .mapInterface, .tunnel, .peerIp, .nextHop, .localIp,
    .cipher, .key, .socket, .pipe]

theorem mem_all (s : Setting) : s ∈ all := by cases s <;> decide

theorem word_short (s : Setting) : s.word.length < ifNamSiz := by cases s <;> decide

theorem test_iff {s : Setting} {key : CStr} :
    s.test key = true ↔ if s.byLength then s.word.Extends key else key = s.word := by
  rw [test]
  split
  · exact strncmpEq_length_iff
  · exact strncmpEq_iff_eq_of_lt s.word_short

theorem extends_of_test {s : Setting} {key : CStr} (h : s.test key = true) :
    s.word.Extends key := by
  rw [test_iff] at h
  split at h
  · exact h
  · rw [h]
    exact CStr.Extends.refl _

/-- No documented key is a prefix of another. -/
theorem eq_of_extends {s t : Setting} (h : t.word.Extends s.word) : s = t := by
  have hall : ∀ s ∈ all, ∀ t ∈ all, t.word.Extends s.word → s = t := by decide
  exact hall s s.mem_all t t.mem_all h

end Setting

/-- A key takes the first branch whose comparison it passes. -/
theorem settingOf_eq_find (key : CStr) : settingOf key = Setting.all.find? (Setting.test key) := by
  have hcons : ∀ (s : Setting) (ss : List Setting), (s :: ss).find? (Setting.test key) =
      if s.test key = true then some s else ss.find? (Setting.test key) := fun s ss => by
    rw [List.find?_cons]
    cases s.test key <;> rfl
  unfold settingOf Setting.all
  iterate 13
    rw [hcons]
    refine ite_congr rfl (fun _ => rfl) (fun _ => ?_)
  rfl

theorem test_of_settingOf {key : CStr} {s : Setting} (h : settingOf key = some s) :
    s.test key = true := by
  rw [settingOf_eq_find] at h
  exact List.find?_some h

theorem exists_settingOf {key : CStr} {s : Setting} (h : s.test key = true) :
    ∃ t, settingOf key = some t := by
  rw [settingOf_eq_find, ← Option.isSome_iff_exists, List.find?_isSome]
  exact ⟨s, s.mem_all, h⟩

theorem settingOf_word (s : Setting) : settingOf s.word = some s := by
  have htest : s.test s.word = true := by
    rw [Setting.test_iff]
    split
    · exact CStr.Extends.refl _
    · rfl
  obtain ⟨t, ht⟩ := exists_settingOf htest
  rw [ht, Setting.eq_of_extends (Setting.extends_of_test (test_of_settingOf ht))]

theorem settingOf_clip {last : UInt8} {key : CStr} : settingOf (clip last key) = settingOf key := by
  have htest : Setting.test (clip last key) = Setting.test key := funext fun s => by
    have hlen : s.word.length < 255 := Nat.lt_trans s.word_short (by decide)
    rw [Bool.eq_iff_iff, Setting.test_iff, Setting.test_iff, extends_clip_iff hlen,
      clip_eq_iff hlen]
  rw [settingOf_eq_find, settingOf_eq_find, htest]

/-! ## Exact words

What may happen at a section or at a pair if words are matched exactly: the word is one of the
documented ones and has its effect, or nothing happens. -/

def sectionWords : List CStr := ["symmetric-peers", "assymetric-peers"]

def typeWords : List CStr := ["ingress", "egress", "map"]

def versionWords : List CStr := ["4", "6"]

/-- The values that set something under a documented key. -/
def Setting.Knows (s : Setting) (v : CStr) : Prop :=
  match s with
  | .type => v ∈ typeWords
  | .ipVersion => v ∈ versionWords
  | _ => True

namespace Loader

/-- The loader when the value of the key `k` arrives, with peers that hold `heap`. -/
def atKey (ld : Loader) (k : CStr) (heap : Nat → PeerCtx) : Loader :=
  { ld.setKey k with heap := heap }

/-- The loader when the sequence under the key `k` starts, after the section `sequence`. -/
def atSection (ld : Loader) (k : CStr) (sequence : Nat) : Loader :=
  { ld.setKey k with sequence := sequence }

def withPeer (ld : Loader) (peer : PeerCtx) : Loader :=
  { ld with heap := Function.update ld.heap ld.peer peer }

/-- Remember a name; in a section of symmetric peers the next peer starts with it. -/
def named (ld : Loader) (v : CStr) : Loader :=
  let ld := { ld with name := ld.name.strncpy 0 v 255 }
  if ld.sequence = seqSpeer then ld.newPeer else ld

/-- What may become of the loader at a section if words are matched exactly. -/
inductive SectionExact (ld : Loader) (k : CStr) : Loader → Prop where
  | ignored : SectionExact ld k ld
  | symmetric (hk : k = "symmetric-peers") : SectionExact ld k { ld with sequence := seqSpeer }
  | assymetric (hk : k = "assymetric-peers") : SectionExact ld k { ld with sequence := seqApeer }

/-- What may become of the loader at a pair of an entry if words are matched exactly; `none` is the
end of the process. The branch of `map-interface` sets the direction as well. -/
inductive PairExact (env : Env) (ld : Loader) (k v : CStr) : Option Loader → Prop where
  | ignored : PairExact env ld k v (some ld)
  | name (hk : k = "name") : PairExact env ld k v (some (ld.named v))
  | refused (s : Setting) (hk : k = s.word) : PairExact env ld k v none
  | set (s : Setting) (hk : k = s.word) (hv : s.Knows v) :
      PairExact env ld k v (some (ld.withPeer (s.set env v (ld.heap ld.peer))))

/-- Words are matched exactly at a section with the key `h` and at a pair with the key `k` and the
value `v`, whichever section came before and whatever the peers hold. -/
def WordsExact (env : Env) (ld : Loader) (h k v : CStr) : Prop :=
  (∀ sequence, SectionExact (ld.atSection h sequence) h (ld.atSection h sequence).startSection) ∧
    ∀ heap, PairExact env (ld.atKey k heap) k v ((ld.atKey k heap).entryValue env v)

/-! ## Words that are told apart

The exact condition, on the strings and the state before the pair. -/

/-- The key of a section is none that goes on behind a documented one. -/
def SectionTold (k : CStr) : Prop := ∀ w ∈ sectionWords, k.Extends w → k = w

/-- A pair of symmetric peers that is taken for nothing it is not. -/
structure PairTold (ld : Loader) (k v : CStr) : Prop where
  started : ld.peerInit = true
  /-- A prefix of `name` starts the next peer, and so does a name that has changed otherwise than by
  more bytes. -/
  key_name : ¬ ("name" : CStr).Extends k
  same : (ld.name.str 0 256).Extends (ld.lastName.str 0 256)
  /-- The key is no proper prefix of a word that is compared as far as the key goes. A key taken for
  `type` does nothing if its value names no type. -/
  key : ∀ s : Setting, s.byLength = true → s.word.Extends k →
    k = s.word ∨ s = .type ∧ ∀ w ∈ typeWords, ¬ w.Extends v
  type : k = "type" → ∀ w ∈ typeWords, w.Extends v → v = w
  ipVersion : k = "ip-version" → v ≠ ""

/-- A pair whose key is not `name`. -/
structure EntryTold (ld : Loader) (k v : CStr) : Prop where
  /-- A key that goes on behind `name` brings no other name. -/
  name : k.Extends "name" → ld.name.strncpy 0 v 255 = ld.name
  pair : ld.sequence = seqSpeer → ld.PairTold k v

end Loader

/-! ## What a setting changes

Whatever the value, there is a peer that the setting changes, unless it is a `type` whose value
names none of the types. So a key that is taken for another one shows. -/

section Set

variable {env : Env} {s : Setting} {v : CStr}

theorem typeValue_eq_none_iff : typeValue v = none ↔ ∀ w ∈ typeWords, ¬ w.Extends v := by
  simp only [typeWords, List.forall_mem_cons, List.not_mem_nil, false_implies, implies_true,
    and_true, ← strncmpEq_length_iff, typeValue]
  split_ifs <;> simp_all

theorem set_of_untyped (h : typeValue v = none) (peer : PeerCtx) :
    Setting.type.set env v peer = peer := by
  have hdir : typeDirection v peer.direction = peer.direction := by
    rw [typeDirection_eq, h, Option.getD_none]
  simp only [Setting.set, hdir]
  rfl

/-- A version has one digit. -/
theorem eq_of_extends_version {w : CStr} (hw : w ∈ versionWords) (hext : w.Extends v)
    (hv : v ≠ "") : v = w := by
  have hone : ∀ w ∈ versionWords, w.length ≤ 1 := by decide
  refine Subtype.ext (List.IsPrefix.eq_of_length_le hext (Nat.le_trans (hone w hw) ?_))
  exact List.length_pos_iff.mpr fun hnil => hv (Subtype.ext hnil)

/-- Some peer is changed by a setting, unless it is a type that the value does not name. -/
theorem exists_set_ne (htype : s = .type → typeValue v ≠ none) :
    ∃ peer, s.set env v peer ≠ peer := by
  -- every component differs from what the value could set it to
  refine ⟨⟨0, 0, (typeValue v).getD 0 + 1 + dirMap, atoi v + 1, hostToIp env v + 1,
    hostToIp env v + 1, fun _ => v.val.getD 0 0 + 1⟩, fun heq => ?_⟩
  cases hfield : s.field with
  | some fn =>
    obtain ⟨f, n⟩ := fn
    have hpos : 0 < n := by cases s <;> cases hfield <;> decide
    have htext := congrFun (congrArg PeerCtx.text heq) (f.off + 0)
    simp only [Setting.set, Setting.textAfter, hfield, Mem.strncpy_apply_add hpos] at htext
    grind
  | none =>
    cases s with
    | type =>
      obtain ⟨d, hd⟩ := Option.ne_none_iff_exists'.mp (htype rfl)
      have hdir := congrArg PeerCtx.direction heq
      simp only [Setting.set, typeDirection_eq, hd, Option.getD_some, dirMap] at hdir
      omega
    | ipVersion =>
      have hversion := congrArg PeerCtx.ipVersion heq
      simp only [Setting.set, if_true] at hversion
      split at hversion <;> cases hversion
    | threads =>
      have hthreads := congrArg PeerCtx.threads heq
      simp only [Setting.set, if_true] at hthreads
      omega
    | localIp =>
      have hmyip := congrArg PeerCtx.myip heq
      simp only [Setting.set, if_true] at hmyip
      grind
    | _ => cases hfield

end Set

/-! ## One pair

`heard` is the loader behind the test for a name, which comes first and applies to every pair. -/

section Pair

variable {env : Env} {ld : Loader} {heap : Nat → PeerCtx} {h k v : CStr}

namespace Loader

@[simp] theorem atKey_name : (ld.atKey k heap).name = ld.name := rfl

/-- The loader at a pair, after it has looked for a name. -/
def heard (ld : Loader) (k v : CStr) (heap : Nat → PeerCtx) : Loader :=
  let ld := ld.atKey k heap
  if k.Extends "name" then { ld with name := ld.name.strncpy 0 v 255 } else ld

theorem heard_of_stored (hname : k.Extends "name" → ld.name.strncpy 0 v 255 = ld.name) :
    ld.heard k v heap = ld.atKey k heap := by
  unfold heard
  split
  · rename_i hk
    show { ld.atKey k heap with name := ld.name.strncpy 0 v 255 } = _
    rw [hname hk]
    rfl
  · rfl

theorem heard_frame (ld : Loader) (k v : CStr) (heap : Nat → PeerCtx) :
    (ld.heard k v heap).heap = heap ∧ (ld.heard k v heap).peer = ld.peer ∧
    (ld.heard k v heap).sequence = ld.sequence ∧ (ld.heard k v heap).peerInit = ld.peerInit ∧
    (ld.heard k v heap).lastName = ld.lastName ∧ (ld.heard k v heap).allocated = ld.allocated := by
  unfold heard
  split <;> exact ⟨rfl, rfl, rfl, rfl, rfl, rfl⟩

/-- The three ways a pair can go, with the comparisons as prefixes. -/
theorem entryValue_atKey (env : Env) (ld : Loader) (k v : CStr) (heap : Nat → PeerCtx) :
    (ld.atKey k heap).entryValue env v =
      if ld.sequence = seqSpeer then
        if ld.peerInit = true ∧ ¬ ("name" : CStr).Extends k ∧
            ((ld.heard k v heap).name.str 0 256).Extends (ld.lastName.str 0 256) then
          (applySetting env v (heap ld.peer) (settingOf k)).map (ld.heard k v heap).withPeer
        else some (ld.heard k v heap).newPeer
      else some (ld.heard k v heap) := by
  have hkey : (ld.atKey k heap).key.str 0 256 = clip (ld.key 255) k := str_copied ld.key k
  have hfour : strncmpEq "name" (clip (ld.key 255) k) 4 = true ↔ k.Extends "name" :=
    (strncmpEq_length_iff (a := "name")).trans (clip_extends_iff (by decide))
  have hheard : (if strncmpEq "name" (clip (ld.key 255) k) 4 then
      { ld.atKey k heap with name := (ld.atKey k heap).name.strncpy 0 v 255 }
      else ld.atKey k heap) = ld.heard k v heap := by
    unfold heard
    exact ite_congr (propext hfour) (fun _ => rfl) fun _ => rfl
  obtain ⟨hheap, hpeer, hseq, hinit, hlast, -⟩ := heard_frame ld k v heap
  have hname : strncmpEq (clip (ld.key 255) k) "name" (clip (ld.key 255) k).length = false ↔
      ¬ ("name" : CStr).Extends k := by
    rw [← Bool.not_eq_true, strncmpEq_length_iff, extends_clip_iff (by decide)]
  unfold entryValue withPeer
  simp only [hkey, hheard, hseq, hinit, hlast, hheap, hpeer, hname, strncmpEq_length_iff,
    applyKey_eq, settingOf_clip]

theorem entryValue_started (hseq : ld.sequence = seqSpeer) (hpair : ld.PairTold k v)
    (hname : k.Extends "name" → ld.name.strncpy 0 v 255 = ld.name) :
    (ld.atKey k heap).entryValue env v =
      (applySetting env v (heap ld.peer) (settingOf k)).map (ld.atKey k heap).withPeer := by
  rw [entryValue_atKey, heard_of_stored hname, if_pos hseq,
    if_pos ⟨hpair.started, hpair.key_name, hpair.same⟩]

theorem newPeer_frame (ld : Loader) :
    ld.newPeer.name = ld.name ∧ ld.newPeer.allocated = ld.allocated + 1 := by
  unfold newPeer
  cases ld.peerInit <;> exact ⟨rfl, rfl⟩

theorem withPeer_self (ld : Loader) : ld.withPeer (ld.heap ld.peer) = ld := by
  rw [withPeer, Function.update_eq_self]

/-- A pair that is told apart does what exact words allow. -/
theorem PairTold.exact (hpair : ld.PairTold k v) :
    PairExact env (ld.atKey k heap) k v
      ((applySetting env v (heap ld.peer) (settingOf k)).map (ld.atKey k heap).withPeer) := by
  have hsame : PairExact env (ld.atKey k heap) k v
      (some ((ld.atKey k heap).withPeer (heap ld.peer))) :=
    (congrArg (fun ld' => PairExact env (ld.atKey k heap) k v (some ld'))
      (withPeer_self (ld.atKey k heap))).mpr .ignored
  cases hs : settingOf k with
  | none => exact hsame
  | some s =>
    have htest := Setting.test_iff.mp (test_of_settingOf hs)
    have hword : k = s.word ∨ s = .type ∧ ∀ w ∈ typeWords, ¬ w.Extends v := by
      split at htest
      · exact hpair.key s ‹_› htest
      · exact Or.inl htest
    rcases hword with hk | ⟨rfl, hv⟩
    · by_cases hr : s.Refuses env v
      · rw [applySetting_of_refuses _ hr]
        exact .refused s hk
      · rw [applySetting_of_not_refuses _ hr]
        by_cases hv : s.Knows v
        · exact .set s hk hv
        · -- the value is not one of the words: the type has no prefix left, the version none at all
          cases s with
          | type =>
            have hnone : typeValue v = none := typeValue_eq_none_iff.mpr fun w hw hext =>
              hv (hpair.type hk w hw hext ▸ hw)
            rw [set_of_untyped hnone]
            exact hsame
          | ipVersion =>
            have hnotin : ∀ w ∈ versionWords, strncmpEq v w v.length = false := fun w hw => by
              rw [← Bool.not_eq_true, strncmpEq_length_iff]
              exact fun hext => hv (eq_of_extends_version hw hext (hpair.ipVersion hk) ▸ hw)
            exact absurd ⟨hnotin _ (by decide), hnotin _ (by decide)⟩ hr
          | _ => exact absurd trivial hv
    · rw [applySetting_of_not_refuses _ (show ¬ Setting.type.Refuses env v from id),
        set_of_untyped (typeValue_eq_none_iff.mpr hv)]
      exact hsame

/-- Under another key than `name` exact words change neither the name nor the number of peers. -/
theorem PairExact.frame {ld' : Loader} (hexact : PairExact env ld k v (some ld'))
    (hk : k ≠ "name") : ld'.name = ld.name ∧ ld'.allocated = ld.allocated := by
  cases hexact with
  | ignored => exact ⟨rfl, rfl⟩
  | name hname => exact absurd hname hk
  | set s hs hv => exact ⟨rfl, rfl⟩

/-- With the branch of `s`, exact words leave two cases: the branch of its own word, and a type that
the value does not name. -/
theorem word_of_exact {s : Setting} (hk : k ≠ "name") (hs : settingOf k = some s)
    (hexact : ∀ heap, PairExact env (ld.atKey k heap) k v
      ((applySetting env v (heap ld.peer) (some s)).map (ld.atKey k heap).withPeer)) :
    k = s.word ∧ (s.Knows v ∨ s.Refuses env v) ∨ s = .type ∧ typeValue v = none := by
  have hsame : ∀ t : Setting, k = t.word → s = t := fun t ht => by
    rw [ht, settingOf_word] at hs
    exact (Option.some.inj hs).symm
  by_cases htype : s = .type ∧ typeValue v = none
  · exact Or.inr htype
  refine Or.inl ?_
  by_cases hr : s.Refuses env v
  · have hnone := hexact ld.heap
    rw [applySetting_of_refuses _ hr] at hnone
    cases hnone with
    | refused t ht => exact ⟨hsame t ht ▸ ht, Or.inr hr⟩
  · -- a peer that the branch changes
    obtain ⟨peer, hne⟩ : ∃ peer, s.set env v peer ≠ peer :=
      exists_set_ne fun hs hv => htype ⟨hs, hv⟩
    have hsome := hexact fun _ => peer
    rw [applySetting_of_not_refuses _ hr] at hsome
    generalize hafter : Option.map _ _ = after at hsome
    cases hsome with
    | ignored =>
      have hheap := congrFun (congrArg heap (Option.some.inj hafter)) ld.peer
      exact absurd ((Function.update_self ..).symm.trans hheap) hne
    | name hname => exact absurd hname hk
    | refused t ht => cases hafter
    | set t ht hv => exact ⟨hsame t ht ▸ ht, Or.inl (hsame t ht ▸ hv)⟩

/-- A key that goes on behind `name` takes no branch of a setting. -/
theorem settingOf_of_extends_name (hext : k.Extends "name") : settingOf k = none := by
  have hall : ∀ s ∈ Setting.all, ¬ s.word.Extends "name" := by decide
  cases hs : settingOf k with
  | none => rfl
  | some s =>
    have hword := Setting.extends_of_test (test_of_settingOf hs)
    exact absurd (hword.trans hext) (hall s s.mem_all)

theorem name_of_exact (hk : k ≠ "name")
    (hexact : ∀ heap, PairExact env (ld.atKey k heap) k v ((ld.atKey k heap).entryValue env v))
    (hext : k.Extends "name") : ld.name.strncpy 0 v 255 = ld.name := by
  have hname : (ld.heard k v ld.heap).name = ld.name.strncpy 0 v 255 := by
    rw [heard, if_pos hext]
    rfl
  have hframe : ∀ ld' : Loader, (ld.atKey k ld.heap).entryValue env v = some ld' →
      ld'.name = ld.name := fun ld' hsome => ((hsome ▸ hexact ld.heap).frame hk).1
  rw [entryValue_atKey, settingOf_of_extends_name hext] at hframe
  rw [← hname]
  split at hframe
  · split at hframe
    · exact hframe ((ld.heard k v ld.heap).withPeer (ld.heap ld.peer)) rfl
    · exact (newPeer_frame _).1.symm.trans (hframe _ rfl)
  · exact hframe _ rfl

/-- Of the words that have their key as a prefix, `type` shares its first byte with no other one
that is compared as far as the key goes. -/
theorem eq_type_of_extends {s : Setting} (hnil : k ≠ "") (hlen : s.byLength = true)
    (htype : Setting.type.word.Extends k) (hs : s.word.Extends k) : s = .type := by
  have hall : ∀ s ∈ Setting.all, s.byLength = true →
      s.word.val.head? = Setting.type.word.val.head? → s = .type := by decide
  have hhead : ∀ w : CStr, w.Extends k → w.val.head? = k.val.head? := by
    rintro w ⟨rest, hrest⟩
    rw [← hrest, List.head?_append_of_ne_nil _ fun h => hnil (Subtype.ext h)]
  exact hall s s.mem_all hlen ((hhead _ hs).trans (hhead _ htype).symm)

theorem pairTold_of_exact (hk : k ≠ "name") (hseq : ld.sequence = seqSpeer)
    (hexact : ∀ heap, PairExact env (ld.atKey k heap) k v ((ld.atKey k heap).entryValue env v)) :
    ld.PairTold k v := by
  have hname := name_of_exact hk hexact
  simp only [entryValue_atKey, heard_of_stored hname, if_pos hseq, atKey_name] at hexact
  by_cases hcur : ld.peerInit = true ∧ ¬ ("name" : CStr).Extends k ∧
      (ld.name.str 0 256).Extends (ld.lastName.str 0 256)
  · have hword : ∀ s, settingOf k = some s →
        k = s.word ∧ (s.Knows v ∨ s.Refuses env v) ∨ s = .type ∧ typeValue v = none := fun s hs =>
      word_of_exact hk hs fun heap => by
        have hheap := hexact heap
        rwa [if_pos hcur, hs] at hheap
    refine ⟨hcur.1, hcur.2.1, hcur.2.2, fun s hlen hext => ?_, fun htype w hw hext => ?_,
      fun hversion hv => ?_⟩
    · -- the key goes to some branch `t`, whose word starts with it as well
      obtain ⟨t, ht⟩ := exists_settingOf (Setting.test_iff.mpr (by rwa [if_pos hlen]))
      rcases hword t ht with ⟨hkt, -⟩ | ⟨rfl, hv⟩
      · exact Or.inl (Setting.eq_of_extends (hkt ▸ hext) ▸ hkt)
      · refine Or.inr ⟨eq_type_of_extends (fun hnil => ?_) hlen
          (Setting.extends_of_test (test_of_settingOf ht)) hext, typeValue_eq_none_iff.mp hv⟩
        exact hcur.2.1 (hnil ▸ show ("name" : CStr).Extends "" by decide)
    · rcases hword .type (htype ▸ settingOf_word .type) with ⟨-, hv | hv⟩ | ⟨-, hv⟩
      · have hall : ∀ w ∈ typeWords, ∀ v ∈ typeWords, w.Extends v → v = w := by decide
        exact hall w hw v hv hext
      · exact absurd hv id
      · exact absurd hext (typeValue_eq_none_iff.mp hv w hw)
    · rcases hword .ipVersion (hversion ▸ settingOf_word .ipVersion) with ⟨-, hv' | hv'⟩ | ⟨hs, -⟩
      · exact absurd (hv ▸ hv') (show ("" : CStr) ∉ versionWords by decide)
      · exact absurd (hv ▸ hv').1 (show strncmpEq "" "4" ("" : CStr).length ≠ false by decide)
      · cases hs
  · have hframe := ((if_neg hcur ▸ hexact ld.heap).frame hk).2
    rw [(newPeer_frame _).2] at hframe
    exact absurd hframe (Nat.succ_ne_self _)

theorem entryValue_name (env : Env) (ld : Loader) (v : CStr) (heap : Nat → PeerCtx) :
    (ld.atKey "name" heap).entryValue env v = some ((ld.atKey "name" heap).named v) := by
  have hcur : ¬ (ld.peerInit = true ∧ ¬ ("name" : CStr).Extends "name" ∧
      ((ld.heard "name" v heap).name.str 0 256).Extends (ld.lastName.str 0 256)) :=
    fun hcur => hcur.2.1 (CStr.Extends.refl _)
  rw [entryValue_atKey, if_neg hcur, heard, if_pos (CStr.Extends.refl _), named,
    apply_ite some]
  rfl

theorem pairExact_iff : (∀ heap, PairExact env (ld.atKey k heap) k v
    ((ld.atKey k heap).entryValue env v)) ↔ k = "name" ∨ ld.EntryTold k v := by
  by_cases hk : k = "name"
  · refine iff_of_true (fun heap => ?_) (Or.inl hk)
    rw [hk, entryValue_name]
    exact .name rfl
  constructor
  · intro hexact
    exact Or.inr ⟨name_of_exact hk hexact, fun hseq => pairTold_of_exact hk hseq hexact⟩
  · rintro (hname | htold) heap
    · exact absurd hname hk
    by_cases hseq : ld.sequence = seqSpeer
    · rw [entryValue_started hseq (htold.pair hseq) htold.name]
      exact (htold.pair hseq).exact
    · rw [entryValue_atKey, if_neg hseq, heard_of_stored htold.name]
      exact .ignored

end Loader

end Pair

/-! ## One section

The two section names are literals with a length of their own in the comparison, so any name that
goes on behind one of them is taken for it.
-/

section Section

variable {ld : Loader} {h : CStr}

namespace Loader

theorem startSection_atSection (ld : Loader) (h : CStr) (sequence : Nat) :
    (ld.atSection h sequence).startSection =
      if h.Extends "symmetric-peers" then { ld.atSection h sequence with sequence := seqSpeer }
      else if h.Extends "assymetric-peers" then
        { ld.atSection h sequence with sequence := seqApeer }
      else ld.atSection h sequence := by
  have hkey : (ld.atSection h sequence).key.str 0 256 = clip (ld.key 255) h := str_copied ld.key h
  have hsym : strncmpEq "symmetric-peers" (clip (ld.key 255) h) 15 = true ↔
      h.Extends "symmetric-peers" :=
    (strncmpEq_length_iff (a := "symmetric-peers")).trans (clip_extends_iff (by decide))
  have hasym : strncmpEq "assymetric-peers" (clip (ld.key 255) h) 16 = true ↔
      h.Extends "assymetric-peers" :=
    (strncmpEq_length_iff (a := "assymetric-peers")).trans (clip_extends_iff (by decide))
  unfold startSection
  simp only [hkey, hsym, hasym]

theorem SectionExact.sequence {ld' : Loader} (hexact : SectionExact ld h ld') :
    ld'.sequence = ld.sequence ∨ h = "symmetric-peers" ∧ ld'.sequence = seqSpeer ∨
      h = "assymetric-peers" ∧ ld'.sequence = seqApeer := by
  cases hexact with
  | ignored => exact Or.inl rfl
  | symmetric hk => exact Or.inr (Or.inl ⟨hk, rfl⟩)
  | assymetric hk => exact Or.inr (Or.inr ⟨hk, rfl⟩)

theorem sectionExact_iff : (∀ sequence, SectionExact (ld.atSection h sequence) h
    (ld.atSection h sequence).startSection) ↔ SectionTold h := by
  simp only [startSection_atSection, SectionTold, sectionWords, List.forall_mem_cons,
    List.not_mem_nil, false_implies, implies_true, and_true]
  constructor
  · intro hexact
    -- after a section that is neither of the two the comparison shows in `sequence`
    have hglobal := (hexact seqGlobal).sequence
    refine ⟨fun hsym => ?_, fun hasym => ?_⟩
    · rw [if_pos hsym] at hglobal
      rcases hglobal with hseq | ⟨hk, -⟩ | ⟨-, hseq⟩
      · cases hseq
      · exact hk
      · cases hseq
    · have hsym : ¬ h.Extends "symmetric-peers" := fun hsym =>
        (List.prefix_or_prefix_of_prefix hsym hasym).elim
          (fun hpre => absurd hpre (by decide)) fun hpre => absurd hpre (by decide)
      rw [if_neg hsym, if_pos hasym] at hglobal
      rcases hglobal with hseq | ⟨-, hseq⟩ | ⟨hk, -⟩
      · cases hseq
      · cases hseq
      · exact hk
  · rintro ⟨hsym, hasym⟩ sequence
    split
    · rename_i hext
      exact .symmetric (hsym hext)
    · split
      · rename_i hext
        exact .assymetric (hasym hext)
      · exact .ignored

end Loader

end Section

/-- **Words.** The loader matches words exactly at a section and at a pair of an entry exactly when
both are told apart. -/
theorem wordsExact_iff (env : Env) (ld : Loader) (h k v : CStr) :
    ld.WordsExact env h k v ↔ Loader.SectionTold h ∧ (k = "name" ∨ ld.EntryTold k v) := by
  rw [Loader.WordsExact, Loader.sectionExact_iff, Loader.pairExact_iff]

/-- The loader after `symmetric-peers:` and `- name: a`. -/
def inEntry : Loader :=
  (((blankLoader 0).setKey "symmetric-peers").startSection.setKey "name").named "a"

/-- In that entry `t: ingress` sets the type. -/
theorem wordsExact_fails :
    ¬ ∀ (env : Env) (ld : Loader) (h k v : CStr), ld.WordsExact env h k v := by
  intro hall
  have hexact := (hall offline inEntry "symmetric-peers" "t" "ingress").2
    fun _ => ⟨1, 4, dirOut, 1, 0, 0, fun _ => 0⟩
  have hset : ((inEntry.atKey "t" fun _ => ⟨1, 4, dirOut, 1, 0, 0, fun _ => 0⟩).entryValue offline
      "ingress").map (fun ld => (ld.heap ld.peer).direction) = some dirIn := by decide
  have hword : ∀ s : Setting, ("t" : CStr) ≠ s.word := fun s => by cases s <;> decide
  generalize Loader.entryValue offline _ _ = after at hexact hset
  cases hexact with
  | ignored => exact absurd hset (by decide)
  | name hk => exact absurd hk (by decide)
  | refused s hk => exact absurd hk (hword s)
  | set s hk hv => exact absurd hk (hword s)

end Lanes
