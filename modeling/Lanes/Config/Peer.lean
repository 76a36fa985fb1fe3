import Mathlib.Logic.Function.Basic
import Mathlib.Tactic.SplitIfs
import Lanes.Lib.CString

/-!
# Peers

`struct peer_context` (`main.h`), `host_to_ip` (`network.c`) and what one key of a peer entry does
to the peer (`load_config` in `state.c`). The character arrays of the structure are adjacent, so
they are one memory in which each array is an offset and a size.

`applyKey` is the chain of comparisons as it stands in the source. `Setting` names its branches, and
`applyKey_eq` says once that a key goes to one branch and what the branch does (`Setting.set`) or
refuses (`Setting.Refuses`); all later proofs are about settings.
-/

namespace Lanes

/-! ## The structure

An array is an offset and a size, in the order of the declarations. `copy` takes its own bound, as
`strncpy` does: with 255 for an interface name it goes on into the arrays behind, with NULs where
the value has come to its end.
-/

structure PeerCtx where
  id : Int
  ipVersion : Int
  direction : Int
  threads : Int
  peerip : UInt32
  myip : UInt32
  /-- The character arrays, `name` at offset 0. -/
  text : Mem

def dirIn : Int := 0
def dirOut : Int := 1
def dirMap : Int := 2

def ifNamSiz : Nat := 16

/-- A character array of the structure. -/
structure Field where
  off : Nat
  size : Nat
  deriving Repr, DecidableEq

namespace Field

def name : Field := ⟨0, 256⟩
/-- `char version` lies between `name` and `ifname`. -/
def version : Field := ⟨256, 1⟩
def ifname : Field := ⟨257, ifNamSiz⟩
def tifname : Field := ⟨273, ifNamSiz⟩
def ifmap : Field := ⟨289, ifNamSiz⟩
def peerIp : Field := ⟨305, 256⟩
def nextHop : Field := ⟨561, 256⟩
def cipher : Field := ⟨817, 256⟩
def socketPath : Field := ⟨1073, 256⟩
def pipePath : Field := ⟨1329, 256⟩
def key : Field := ⟨1585, 16000⟩

end Field

/-- `strncpy (peer->field, s, n)`; `n` may exceed the size of the field. -/
def PeerCtx.copy (peer : PeerCtx) (f : Field) (s : CStr) (n : Nat) : PeerCtx :=
  { peer with text := peer.text.strncpy f.off s n }

/-- The string in a character array. -/
def PeerCtx.str (peer : PeerCtx) (f : Field) : CStr := peer.text.str f.off f.size

/-! ## `host_to_ip`

The result of `getaddrinfo` is read as an address of IPv4 whatever its family is, and an error as 0.
-/

/-- One result of `getaddrinfo`. The four bytes at which `sin_addr` lies are the flow information
in the address structure of IPv6. -/
inductive AddrInfo where
  | inet (addr : UInt32)
  | inet6 (flowinfo : UInt32)
  deriving Repr, DecidableEq

/-- What the loader takes from outside. -/
structure Env where
  /-- `none` is an error code; on success there is a first result. -/
  getaddrinfo : CStr → Option (AddrInfo × List AddrInfo)

/-- The address that the first result is read as. -/
def AddrInfo.sinAddr : AddrInfo → UInt32
  | .inet addr => addr
  | .inet6 flowinfo => flowinfo

def hostToIp (env : Env) (host : CStr) : UInt32 :=
  match env.getaddrinfo host with
  | none => 0
  | some (first, _) => first.sinAddr

/-! ## One key

The chain first, then the same by settings: the setting that a key goes to, the values it refuses,
and its effect on the structure.
-/

/-- What `type` makes of its value. -/
def typeDirection (value : CStr) (direction : Int) : Int :=
  if strncmpEq value "ingress" value.length then dirIn
  else if strncmpEq value "egress" value.length then dirOut
  else if strncmpEq value "map" value.length then dirMap
  else direction

/-- The branches that `load_config` tries for a key of the current peer, in their order. `none` is
`die (1, …)`. -/
def applyKey (env : Env) (key value : CStr) (peer : PeerCtx) : Option PeerCtx :=
  -- `strncmp` with the length of the key: a key that the literal starts with is taken for it
  if strncmpEq key "type" key.length then
    some { peer with direction := typeDirection value peer.direction }
  else if strncmpEq key "ip-version" key.length then
    if strncmpEq value "4" value.length then some { peer with ipVersion := 4 }
    else if strncmpEq value "6" value.length then some { peer with ipVersion := 6 }
    else none
  else if strncmpEq key "threads" ifNamSiz then
    -- a count of 0 is only reported
    some { peer with threads := atoi value }
  else if strncmpEq key "interface" ifNamSiz then
    some (peer.copy .ifname value 255)
  else if strncmpEq key "map-interface" ifNamSiz then
    some { peer.copy .ifmap value 255 with direction := dirMap }
  else if strncmpEq key "tunnel" ifNamSiz then
    some (peer.copy .tifname value 255)
  else if strncmpEq key "peer-ip" key.length then
    let peer := { peer.copy .peerIp value 255 with peerip := hostToIp env value }
    if peer.peerip = 0 then none else some peer
  else if strncmpEq key "next-hop" key.length then
    some (peer.copy .nextHop value 255)
  else if strncmpEq key "local-ip" key.length then
    let peer := { peer with myip := hostToIp env value }
    if peer.myip = 0 then none else some peer
  else if strncmpEq key "cipher" key.length then
    some (peer.copy .cipher value 255)
  else if strncmpEq key "key" key.length then
    some (peer.copy .key value 16000)
  else if strncmpEq key "socket" key.length then
    some (peer.copy .socketPath value 255)
  else if strncmpEq key "pipe" key.length then
    some (peer.copy .pipePath value 255)
  else some peer

/-- Apply the pairs of one entry in their order. -/
def applyPairs (env : Env) (pairs : List (CStr × CStr)) (peer : PeerCtx) : Option PeerCtx :=
  pairs.foldlM (fun peer pair => applyKey env pair.1 pair.2 peer) peer

@[simp] theorem applyPairs_nil (env : Env) (peer : PeerCtx) : applyPairs env [] peer = some peer :=
  rfl

theorem applyPairs_concat (env : Env) (pairs : List (CStr × CStr)) (pair : CStr × CStr)
    (peer : PeerCtx) :
    applyPairs env (pairs ++ [pair]) peer =
      (applyPairs env pairs peer).bind (applyKey env pair.1 pair.2) := by
  simp [applyPairs, List.foldlM_append]

/-! ## The branches by name

One constructor for each branch, in the order of the source. `ip-version` is compared with `4` and
`6` over the length of the value, so that it is the branch with the most outcomes. -/

/-- The keys that `applyKey` knows. -/
inductive Setting where
  | type
  | ipVersion
  | threads
  | interface
  | mapInterface
  | tunnel
  | peerIp
  | nextHop
  | localIp
  | cipher
  | key
  | socket
  | pipe
  deriving DecidableEq

/-- The branch that a key takes. -/
def settingOf (key : CStr) : Option Setting :=
  if strncmpEq key "type" key.length then some .type
  else if strncmpEq key "ip-version" key.length then some .ipVersion
  else if strncmpEq key "threads" ifNamSiz then some .threads
  else if strncmpEq key "interface" ifNamSiz then some .interface
  else if strncmpEq key "map-interface" ifNamSiz then some .mapInterface
  else if strncmpEq key "tunnel" ifNamSiz then some .tunnel
  else if strncmpEq key "peer-ip" key.length then some .peerIp
  else if strncmpEq key "next-hop" key.length then some .nextHop
  else if strncmpEq key "local-ip" key.length then some .localIp
  else if strncmpEq key "cipher" key.length then some .cipher
  else if strncmpEq key "key" key.length then some .key
  else if strncmpEq key "socket" key.length then some .socket
  else if strncmpEq key "pipe" key.length then some .pipe
  else none

/-- The array that a setting copies its value to, and how many bytes of it. -/
def Setting.field : Setting → Option (Field × Nat)
  | .interface => some (.ifname, 255)
  | .mapInterface => some (.ifmap, 255)
  | .tunnel => some (.tifname, 255)
  | .peerIp => some (.peerIp, 255)
  | .nextHop => some (.nextHop, 255)
  | .cipher => some (.cipher, 255)
  | .key => some (.key, 16000)
  | .socket => some (.socketPath, 255)
  | .pipe => some (.pipePath, 255)
  | .type | .ipVersion | .threads | .localIp => none

/-- The text of a peer after a setting. -/
def Setting.textAfter (s : Setting) (value : CStr) (text : Mem) : Mem :=
  match s.field with
  | some (f, n) => text.strncpy f.off value n
  | none => text

/-- The setting ends the process. -/
def Setting.Refuses (env : Env) (s : Setting) (value : CStr) : Prop :=
  match s with
  | .ipVersion => strncmpEq value "4" value.length = false ∧
      strncmpEq value "6" value.length = false
  | .peerIp | .localIp => hostToIp env value = 0
  | _ => False

instance (env : Env) (s : Setting) (value : CStr) : Decidable (s.Refuses env value) :=
  match s with
  | .ipVersion => inferInstanceAs (Decidable (_ ∧ _))
  | .peerIp | .localIp => inferInstanceAs (Decidable (hostToIp env value = 0))
  | .type | .threads | .interface | .mapInterface | .tunnel | .nextHop | .cipher | .key
  | .socket | .pipe => isFalse id

/-- A setting that is not refused: the numbers it sets and the text it copies. -/
def Setting.set (env : Env) (s : Setting) (value : CStr) (peer : PeerCtx) : PeerCtx where
  id := peer.id
  ipVersion :=
    if s = .ipVersion then if strncmpEq value "4" value.length then 4 else 6 else peer.ipVersion
  direction :=
    match s with
    | .type => typeDirection value peer.direction
    | .mapInterface => dirMap
    | _ => peer.direction
  threads := if s = .threads then atoi value else peer.threads
  peerip := if s = .peerIp then hostToIp env value else peer.peerip
  myip := if s = .localIp then hostToIp env value else peer.myip
  text := s.textAfter value peer.text

/-- What the branch of a key does. -/
def applySetting (env : Env) (value : CStr) (peer : PeerCtx) : Option Setting → Option PeerCtx
  | none => some peer
  | some s => if s.Refuses env value then none else some (s.set env value peer)

theorem applySetting_of_refuses {env : Env} {s : Setting} {value : CStr} (peer : PeerCtx)
    (h : s.Refuses env value) : applySetting env value peer (some s) = none := if_pos h

theorem applySetting_of_not_refuses {env : Env} {s : Setting} {value : CStr} (peer : PeerCtx)
    (h : ¬ s.Refuses env value) :
    applySetting env value peer (some s) = some (s.set env value peer) := if_neg h

/-- The branch of `ip-version` is the only one that compares its value more than once. -/
theorem applySetting_ipVersion (env : Env) (value : CStr) (peer : PeerCtx) :
    (if strncmpEq value "4" value.length then some { peer with ipVersion := 4 }
      else if strncmpEq value "6" value.length then some { peer with ipVersion := 6 }
      else none) = applySetting env value peer (some .ipVersion) := by
  by_cases h4 : strncmpEq value "4" value.length = true
  · have hok : ¬ Setting.ipVersion.Refuses env value := fun h => by
      rw [h.1] at h4
      cases h4
    rw [if_pos h4, applySetting_of_not_refuses peer hok]
    simp only [Setting.set, h4, if_true]
    rfl
  · rw [if_neg h4]
    by_cases h6 : strncmpEq value "6" value.length = true
    · have hok : ¬ Setting.ipVersion.Refuses env value := fun h => by
        rw [h.2] at h6
        cases h6
      rw [if_pos h6, applySetting_of_not_refuses peer hok]
      simp only [Setting.set, h4, if_true]
      rfl
    · have hbad : Setting.ipVersion.Refuses env value :=
        ⟨Bool.eq_false_iff.mpr h4, Bool.eq_false_iff.mpr h6⟩
      rw [if_neg h6, applySetting_of_refuses peer hbad]

/-- `applyKey` is the branch that the key takes. -/
theorem applyKey_eq (env : Env) (key value : CStr) (peer : PeerCtx) :
    applyKey env key value peer = applySetting env value peer (settingOf key) := by
  unfold applyKey settingOf
  iterate 13
    rw [apply_ite (applySetting env value peer)]
    refine ite_congr rfl (fun _ => ?_) (fun _ => ?_)
    · first
      | rfl
      | exact applySetting_ipVersion env value peer
  rfl

/-- What a pair that goes through does: nothing, or what its setting says. -/
theorem applyKey_some {env : Env} {key value : CStr} {peer peer' : PeerCtx}
    (h : applyKey env key value peer = some peer') :
    (settingOf key = none ∧ peer' = peer) ∨
      ∃ s, settingOf key = some s ∧ ¬ s.Refuses env value ∧ peer' = s.set env value peer := by
  rw [applyKey_eq] at h
  cases hs : settingOf key with
  | none =>
    rw [hs] at h
    cases h
    exact Or.inl ⟨rfl, rfl⟩
  | some s =>
    rw [hs] at h
    by_cases hr : s.Refuses env value
    · rw [applySetting_of_refuses peer hr] at h
      cases h
    · rw [applySetting_of_not_refuses peer hr] at h
      cases h
      exact Or.inr ⟨s, rfl, hr, rfl⟩

/-- The loader does not end the process at this pair. -/
def Accepted (env : Env) (key value : CStr) : Prop :=
  ∀ s, settingOf key = some s → ¬ s.Refuses env value

instance (env : Env) (key value : CStr) : Decidable (Accepted env key value) :=
  match h : settingOf key with
  | none => isTrue fun s hs => by rw [h] at hs; cases hs
  | some s => decidable_of_iff (¬ s.Refuses env value)
      ⟨fun hs t ht => by rw [h] at ht; cases ht; exact hs, fun hall => hall s h⟩

/-- Whether a pair is accepted does not depend on the peer. -/
theorem applyKey_isSome {env : Env} {key value : CStr} (peer : PeerCtx) :
    (applyKey env key value peer).isSome = true ↔ Accepted env key value := by
  rw [applyKey_eq, Accepted]
  cases settingOf key with
  | none => simp [applySetting]
  | some s =>
    by_cases hs : s.Refuses env value
    · simp [applySetting_of_refuses peer hs, hs]
    · simp [applySetting_of_not_refuses peer hs, hs]

/-! ## The name of a peer stays

The name lies in front of the other arrays, and a copy that is too long runs the other way.
-/

/-- Every copied array lies behind the name and the version. -/
theorem Setting.field_off {s : Setting} {f : Field} {n : Nat} (h : s.field = some (f, n)) :
    257 ≤ f.off := by
  cases s <;> cases h <;> decide

theorem Setting.textAfter_of_lt (s : Setting) (value : CStr) (text : Mem) {x : Nat}
    (hx : x < 257) : s.textAfter value text x = text x := by
  unfold Setting.textAfter
  cases hf : s.field with
  | none => rfl
  | some fn => exact Mem.strncpy_apply_of_lt (by have := Setting.field_off hf; omega)

theorem applyKey_name {env : Env} {key value : CStr} {peer peer' : PeerCtx}
    (h : applyKey env key value peer = some peer') :
    peer'.id = peer.id ∧ peer'.str .name = peer.str .name := by
  rcases applyKey_some h with ⟨-, rfl⟩ | ⟨s, -, -, rfl⟩
  · exact ⟨rfl, rfl⟩
  · refine ⟨rfl, Mem.str_congr fun k hk => ?_⟩
    exact Setting.textAfter_of_lt s value peer.text (by simp only [Field.name] at *; omega)

theorem applyPairs_name {env : Env} {pairs : List (CStr × CStr)} {peer peer' : PeerCtx}
    (h : applyPairs env pairs peer = some peer') :
    peer'.id = peer.id ∧ peer'.str .name = peer.str .name := by
  induction pairs generalizing peer with
  | nil =>
    cases h
    exact ⟨rfl, rfl⟩
  | cons pair pairs ih =>
    obtain ⟨mid, hmid, hrest⟩ := Option.bind_eq_some_iff.mp
      (show (applyKey env pair.1 pair.2 peer).bind (applyPairs env pairs) = some peer' from h)
    obtain ⟨hid, hname⟩ := applyKey_name hmid
    obtain ⟨hid', hname'⟩ := ih hrest
    exact ⟨hid'.trans hid, hname'.trans hname⟩

end Lanes
