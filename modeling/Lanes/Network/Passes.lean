import Lanes.Network.Isolation

/-!
# The two passes of `enumerate_interfaces`

The first pass sizes `TX` by the peers that name a tunnel or a socket, `RX` by those whose interface
came up, and `M` by those whose map interface did. The second pass sets up one session for each
peer by its direction. The two go by different fields, so that an index may reach behind its array
although every session is in an element of its own.

**`passesAgree_iff`** is the exact condition on the list, `CountedFor`: a count on the peers before
any session exists. It is enough because a set-up that goes on uses one element
(`within_of_room`). It is needed because every call can succeed without opening a tunnel, so that
nothing but the count can stop the pass before the peer without an element (`room_of_within`).
-/

namespace Lanes

/-! ## Sessions against elements

The property quantifies over what the calls return; what is fixed is the part of each peer that the
first pass goes by. -/

/-- The elements that the first pass counts for the sessions of a direction. -/
def elements (as : List Listed) : Dir → Nat
  | .egress => (countSessions as).1
  | .ingress => (countSessions as).2.1

def mapElements (as : List Listed) : Nat := (countSessions as).2.2

/-- The second pass, each session in the element of its number. -/
def ownNext (net : Net) (a : Listed) : Option Net := (enumerateStep some net a).toOption

/-- The session of a peer finds its element, and a map session makes no more of them than there are
elements. -/
structure RoomFor (as : List Listed) (net : Net) (a : Listed) : Prop where
  own : ∀ dir, a.peer.dir? = some dir → net.count dir < elements as dir
  map : a.peer.direction = dirMap → net.threads.count .mapIn < mapElements as

/-- What the first pass goes by. -/
def Listed.seen (a : Listed) : PeerCtx × Bool × Bool := (a.peer, a.ifUp, a.mapUp)

/-- Whatever the other calls return, every session that the second pass gets to has its element. -/
def PassesAgree (as : List Listed) : Prop :=
  ∀ bs : List Listed, bs.map Listed.seen = as.map Listed.seen →
    ∀ mem, Run.Within ownNext (RoomFor bs) (startNet mem bs) bs

/-! ## When they agree

Some peers end the process in the second pass whatever the calls return. Nothing behind the first
of them is reached, so nothing behind it needs an element. -/

/-- A session of this peer ends the process whatever the calls return: it has no interface, or
nothing to take its packets from. -/
def PeerCtx.fatal (peer : PeerCtx) : Bool :=
  peer.dir?.isSome && (!peer.isSet .ifname ||
    (!peer.isSet .tifname && !peer.isSet .socketPath && !peer.isSet .pipePath))

/-- The peers that the second pass may get to. -/
def reached : List Listed → List Listed
  | [] => []
  | a :: as => a :: if a.peer.fatal then [] else reached as

def sessionsOf (dir : Dir) (as : List Listed) : Nat :=
  as.countP fun a => a.peer.dir? == some dir

def mapSessions (as : List Listed) : Nat := as.countP fun a => a.peer.direction == dirMap

/-- The first pass counts an element for every session that the second may get to. -/
def CountedFor (as : List Listed) : Prop :=
  (∀ dir, sessionsOf dir (reached as) ≤ elements as dir) ∧
    mapSessions (reached as) ≤ mapElements as

section Passes

variable {net net' : Net} {dir : Dir} {a : Listed} {as bs : List Listed} {peer : PeerCtx}
  {calls : SessionCalls}

/-! ## One peer of the second pass

If the pass goes on after a peer, that peer was not fatal, and exactly the counts of its direction
have gone up. -/

/-- A peer that gets a session is no map. -/
theorem direction_ne_map (h : peer.dir? = some dir) : peer.direction ≠ dirMap := fun hmap => by
  unfold PeerCtx.dir? at h
  rw [if_neg (by rw [hmap]; decide), if_neg (by rw [hmap]; decide)] at h
  cases h

/-- A set-up that returns has something to take its packets from, and starts no map thread. -/
theorem SetUpMade.source {elem : Nat → Option Nat} {e : Nat} {xs x : Xq} {started : List Thread}
    (h : SetUpMade elem dir net peer calls e xs x started) :
    (peer.isSet .tifname = true ∨ peer.isSet .socketPath = true ∨ peer.isSet .pipePath = true) ∧
      started.count .mapIn = 0 := by
  cases h with
  | tunnel _ _ _ _ hset =>
    exact ⟨Or.inl hset, List.count_eq_zero_of_not_mem (by simp [sessionThreads])⟩
  | noTunnel _ _ hset => exact ⟨Or.inl hset, rfl⟩
  | socket _ hset => exact ⟨Or.inr (Or.inl hset), rfl⟩
  | pipe _ hset => exact ⟨Or.inr (Or.inr hset), rfl⟩

/-- A session that returns has an interface. -/
theorem session_isSet {elem : Nat → Option Nat}
    (h : session elem dir dir.tunnel net peer calls = .ok net') : peer.isSet .ifname = true := by
  unfold session at h
  simp only [bind_eq_ok] at h
  obtain ⟨-, -, -, -, u, hset, -⟩ := h
  cases hif : peer.isSet .ifname with
  | true => rfl
  | false =>
    rw [hif] at hset
    cases hset

theorem ownNext_eq_some : ownNext net a = some net' ↔ enumerateStep some net a = .ok net' := by
  unfold ownNext
  cases enumerateStep some net a <;> simp [Except.toOption]

/-- The map threads that a peer without a session starts. -/
theorem count_mapIn (hdir : a.peer.dir? = none) (h : enumerateStep some net a = .ok net') :
    net'.threads.count .mapIn =
      net.threads.count .mapIn + if a.peer.direction = dirMap then 1 else 0 := by
  have hreplicate : ∀ n, (List.replicate n Thread.map).count .mapIn = 0 := fun n =>
    List.count_eq_zero_of_not_mem (by simp [List.mem_replicate])
  unfold PeerCtx.dir? at hdir
  unfold enumerateStep at h
  split at hdir
  · cases hdir
  · rename_i hout
    split at hdir
    · cases hdir
    · rename_i hin
      rw [if_neg hout, if_neg hin] at h
      split at h
      · rename_i hmap
        cases h
        simp [hmap, hreplicate]
      · rename_i hmap
        cases h
        simp [hmap]

/-- A session that returns was not fatal to its peer, and neither counts nor starts a map thread. -/
theorem session_some (hdir : a.peer.dir? = some dir)
    (h : session some dir dir.tunnel net a.peer a.calls = .ok net') :
    a.peer.fatal = false ∧ net'.count = net.count ∧
      net'.threads.count .mapIn = net.threads.count .mapIn := by
  have hset := session_isSet h
  obtain ⟨e, xs, af, old, x, started, -, -, -, -, hx, rfl⟩ := session_cases h
  obtain ⟨hsource, hstarted⟩ := (setUp_made hx).source
  refine ⟨?_, rfl, by simp [hstarted]⟩
  rw [PeerCtx.fatal, hdir, hset]
  rcases hsource with hsource | hsource | hsource <;> simp [hsource]

/-- A peer that the second pass gets past is not fatal, and counts one session of its kind. -/
theorem ownNext_some (h : ownNext net a = some net') :
    a.peer.fatal = false ∧
      (∀ d, net'.count d = net.count d + if a.peer.dir? = some d then 1 else 0) ∧
      net'.threads.count .mapIn =
        net.threads.count .mapIn + if a.peer.direction = dirMap then 1 else 0 := by
  rw [ownNext_eq_some] at h
  cases hdir : a.peer.dir? with
  | some dir =>
    rw [enumerateStep_of_dir some net hdir] at h
    cases hs : session some dir dir.tunnel net a.peer a.calls with
    | error stop =>
      rw [hs] at h
      cases h
    | ok net₁ =>
      rw [hs] at h
      cases h
      obtain ⟨hfatal, hcount, hmaps⟩ := session_some hdir hs
      refine ⟨hfatal, fun d => ?_, ?_⟩
      · by_cases hd : dir = d
        · subst hd
          simp [Net.countUp, hcount]
        · simp [Net.countUp, Function.update_of_ne (Ne.symm hd), hd, hcount]
      · rw [if_neg (direction_ne_map hdir)]
        exact hmaps
  | none =>
    refine ⟨by rw [PeerCtx.fatal, hdir]; rfl, fun d => ?_, count_mapIn hdir h⟩
    obtain ⟨ts, hts⟩ := enumerateStep_of_none some net hdir
    rw [hts] at h
    cases h
    simp

/-! ## Counted is enough

Induction on the peers still to come, with the room that is left for them. -/

theorem sessionsOf_cons (dir : Dir) (a : Listed) (as : List Listed) :
    sessionsOf dir (reached (a :: as)) = (if a.peer.dir? = some dir then 1 else 0) +
      sessionsOf dir (if a.peer.fatal then [] else reached as) := by
  simp [sessionsOf, reached, List.countP_cons, Nat.add_comm]

theorem mapSessions_cons (a : Listed) (as : List Listed) :
    mapSessions (reached (a :: as)) = (if a.peer.direction = dirMap then 1 else 0) +
      mapSessions (if a.peer.fatal then [] else reached as) := by
  simp [mapSessions, reached, List.countP_cons, Nat.add_comm]

/-- With room for what is left, the second pass finds room at every peer. -/
theorem within_of_room (hown : ∀ dir, net.count dir + sessionsOf dir (reached as) ≤ elements bs dir)
    (hmap : net.threads.count .mapIn + mapSessions (reached as) ≤ mapElements bs) :
    Run.Within ownNext (RoomFor bs) net as := by
  induction as generalizing net with
  | nil => trivial
  | cons a as ih =>
    refine ⟨⟨fun dir hdir => ?_, fun hdirMap => ?_⟩, fun net' hstep => ?_⟩
    · have := hown dir
      rw [sessionsOf_cons, if_pos hdir] at this
      omega
    · rw [mapSessions_cons, if_pos hdirMap] at hmap
      omega
    · -- the pass goes on, so the peer was not fatal and the rest is still to come
      obtain ⟨hfatal, hcount, hthreads⟩ := ownNext_some hstep
      have hrest : (if a.peer.fatal then [] else reached as) = reached as := by simp [hfatal]
      refine ih (fun dir => ?_) ?_
      · have := hown dir
        rw [sessionsOf_cons, hrest] at this
        rw [hcount dir]
        omega
      · rw [mapSessions_cons, hrest] at hmap
        rw [hthreads]
        omega

/-! ## Every call can succeed without a tunnel

`quietCalls` are calls under which every session that is not fatal is set up: the tunnel call gives
0, which is not a descriptor, so that no later search finds anything. -/

/-- The calls of a session that is set up and opens nothing. -/
def quietCalls : SessionCalls := { goodCalls with tuntap := 0, fd := 0, openPipe := 0 }

/-- The arrays have the elements counted, none with a descriptor, and no session is past them. -/
structure Quiet (bs : List Listed) (net : Net) : Prop where
  array : ∀ d, ∃ xs, net.array d = some xs ∧ xs.length = elements bs d ∧ ∀ x ∈ xs, x.fd ≤ 0
  count : ∀ d, net.count d ≤ elements bs d
  maps : net.threads.count .mapIn ≤ mapElements bs

theorem load_some {xs : List Xq} {n : Nat} (hxs : net.array dir = some xs) (hlt : n < xs.length) :
    net.load some dir n = .ok xs[n] := by
  rw [Net.load, hxs]
  exact orOutside_eq_ok.mpr (List.getElem?_eq_getElem hlt)

/-- A search among elements without descriptors finds nothing. -/
theorem Quiet.findFd (hq : Quiet bs net) (d : Dir) (peer : PeerCtx) (fd : Int) {n : Nat}
    (hn : n ≤ elements bs d) : net.findFd some d peer fd n = .ok fd := by
  obtain ⟨xs, hxs, hlen, hfd⟩ := hq.array d
  induction n with
  | zero => rfl
  | succ n ih =>
    have hlt : n < xs.length := by omega
    refine bind_eq_ok.mpr ⟨fd, ih (by omega), bind_eq_ok.mpr ⟨xs[n], load_some hxs hlt, ?_⟩⟩
    have hnone : ¬ 0 < xs[n].fd := by
      have := hfd xs[n] (List.getElem_mem hlt)
      omega
    simp only [hnone, false_and, if_false]
    rfl

theorem Quiet.exists_setUp (hq : Quiet bs net) (e : Nat) {old : Xq} (hold : old.fd ≤ 0)
    (hsource : peer.isSet .tifname = true ∨ peer.isSet .socketPath = true ∨
      peer.isSet .pipePath = true) :
    ∃ x, setUp some dir dir.tunnel net peer quietCalls e 3 old = .ok (x, []) ∧ x.fd ≤ 0 := by
  have hown := hq.findFd dir peer 0 (hq.count dir)
  have hother := hq.findFd dir.other peer 0 (hq.count dir.other)
  by_cases htun : peer.isSet .tifname = true
  · -- `tuntap` fails, and the session goes on without it
    refine ⟨{ old with af := 3, mtu := 1500 }, bind_eq_ok.mpr ⟨(), rfl, ?_⟩, hold⟩
    dsimp only
    rw [if_pos htun]
    exact bind_eq_ok.mpr ⟨0, hown, bind_eq_ok.mpr ⟨0, hother, rfl⟩⟩
  · by_cases hsocket : peer.isSet .socketPath = true
    · refine ⟨{ old with af := 3, mtu := 1500 }, bind_eq_ok.mpr ⟨(), rfl, ?_⟩, hold⟩
      dsimp only
      rw [if_neg htun, if_pos hsocket]
      rfl
    · have hpipe : peer.isSet .pipePath = true :=
        (hsource.resolve_left htun).resolve_left hsocket
      refine ⟨{ old with af := 3, mtu := 1500, type := pipe, fd := 0 },
        bind_eq_ok.mpr ⟨(), rfl, ?_⟩, Int.le_refl 0⟩
      dsimp only
      rw [if_neg htun, if_neg hsocket, if_pos hpipe]
      rfl

/-- A peer that is not fatal and finds room is set up. -/
theorem Quiet.exists_next (hq : Quiet bs net) (hcalls : a.calls = quietCalls)
    (hfatal : a.peer.fatal = false) (hroom : RoomFor bs net a) :
    ∃ net', ownNext net a = some net' ∧ Quiet bs net' := by
  cases hdir : a.peer.dir? with
  | none =>
    obtain ⟨ts, hts⟩ := enumerateStep_of_none some net hdir
    have hnext := ownNext_eq_some.mpr hts
    refine ⟨_, hnext, hq.array, hq.count, ?_⟩
    rw [(ownNext_some hnext).2.2]
    split
    · exact hroom.map ‹_›
    · exact hq.maps
  | some dir =>
    rw [PeerCtx.fatal, hdir] at hfatal
    simp only [Option.isSome_some, Bool.true_and, Bool.or_eq_false_iff, Bool.not_eq_eq_eq_not,
      Bool.not_false, Bool.and_eq_false_iff] at hfatal
    obtain ⟨hif, hsource⟩ := hfatal
    obtain ⟨xs, hxs, hlen, hfd⟩ := hq.array dir
    have hlt : net.count dir < xs.length := hlen ▸ hroom.own dir hdir
    obtain ⟨x, hx, hxfd⟩ := @Quiet.exists_setUp net dir bs a.peer hq (net.count dir)
      xs[net.count dir] (hfd _ (List.getElem_mem hlt)) (by tauto)
    obtain ⟨net₁, hnet₁⟩ : ∃ net₁ : Net, net₁ = { net with
        array := Function.update net.array dir (some (xs.set (net.count dir) x))
        threads := net.threads ++ [] } := ⟨_, rfl⟩
    have hsession : session some dir dir.tunnel net a.peer a.calls = .ok net₁ := by
      rw [hcalls, hnet₁]
      exact session_of_setUp rfl hxs hlt hif rfl hx
    have hstep : enumerateStep some net a = .ok (net₁.countUp dir) := by
      rw [enumerateStep_of_dir some net hdir, hsession]
      rfl
    have hnext := ownNext_eq_some.mpr hstep
    obtain ⟨-, hcount, hthreads⟩ := ownNext_some hnext
    refine ⟨_, hnext, fun d => ?_, fun d => ?_, ?_⟩
    · by_cases hd : d = dir
      · subst hd
        refine ⟨xs.set (net.count d) x, by simp [Net.countUp, hnet₁],
          by rw [List.length_set, hlen], fun y hy => ?_⟩
        rcases List.mem_or_eq_of_mem_set hy with hy | rfl
        · exact hfd y hy
        · exact hxfd
      · obtain ⟨ys, hys, hrest⟩ := hq.array d
        exact ⟨ys, by simp [Net.countUp, hnet₁, Function.update_of_ne hd, hys], hrest⟩
    · rw [hcount d]
      split
      · exact hroom.own d ‹_›
      · exact hq.count d
    · rw [hthreads, if_neg (direction_ne_map hdir)]
      exact hq.maps

/-- When nothing fails that need not, the second pass gets to every peer it may get to. -/
theorem room_of_within (hq : Quiet bs net) (hcalls : ∀ a ∈ as, a.calls = quietCalls)
    (h : Run.Within ownNext (RoomFor bs) net as) :
    (∀ dir, net.count dir + sessionsOf dir (reached as) ≤ elements bs dir) ∧
      net.threads.count .mapIn + mapSessions (reached as) ≤ mapElements bs := by
  induction as generalizing net with
  | nil => exact ⟨hq.count, hq.maps⟩
  | cons a as ih =>
    obtain ⟨hroom, hnext⟩ := h
    have hown : ∀ dir, net.count dir + (if a.peer.dir? = some dir then 1 else 0) ≤
        elements bs dir := fun dir => by
      split
      · exact hroom.own dir ‹_›
      · exact hq.count dir
    have hmaps : net.threads.count .mapIn + (if a.peer.direction = dirMap then 1 else 0) ≤
        mapElements bs := by
      split
      · exact hroom.map ‹_›
      · exact hq.maps
    simp only [sessionsOf_cons, mapSessions_cons, ← Nat.add_assoc]
    cases hfatal : a.peer.fatal with
    | true => exact ⟨hown, hmaps⟩
    | false =>
      obtain ⟨net', hstep, hq'⟩ := hq.exists_next (hcalls a (List.mem_cons_self ..)) hfatal hroom
      obtain ⟨-, hcount, hthreads⟩ := ownNext_some hstep
      obtain ⟨hrest, hrestMaps⟩ := ih hq' (fun b hb => hcalls b (List.mem_cons_of_mem _ hb))
        (hnext net' hstep)
      refine ⟨fun dir => ?_, ?_⟩
      · rw [← hcount dir]
        exact hrest dir
      · rw [← hthreads]
        exact hrestMaps

/-! ## The passes

Both directions, for a list and every other one that looks the same to the first pass. -/

/-- All of it depends on what the first pass goes by. -/
theorem seen_congr (h : bs.map Listed.seen = as.map Listed.seen) :
    countSessions bs = countSessions as ∧
      (∀ dir, sessionsOf dir (reached bs) = sessionsOf dir (reached as)) ∧
      mapSessions (reached bs) = mapSessions (reached as) := by
  induction as generalizing bs with
  | nil =>
    obtain rfl : bs = [] := List.map_eq_nil_iff.mp h
    exact ⟨rfl, fun _ => rfl, rfl⟩
  | cons a as ih =>
    obtain ⟨b, rest, rfl, hb, hrest⟩ := List.map_eq_cons_iff.mp h
    obtain ⟨hcount, hsessions, hmaps⟩ := ih hrest
    obtain ⟨hpeer, hup⟩ := Prod.mk.inj hb
    obtain ⟨hif, hmap⟩ := Prod.mk.inj hup
    refine ⟨?_, fun dir => ?_, ?_⟩
    · simp only [countSessions, hcount, hpeer, hif, hmap]
    · simp only [sessionsOf_cons, hpeer]
      cases a.peer.fatal with
      | true => rfl
      | false => exact congrArg _ (hsessions dir)
    · simp only [mapSessions_cons, hpeer]
      cases a.peer.fatal with
      | true => rfl
      | false => exact congrArg _ hmaps

theorem countedFor_congr (h : bs.map Listed.seen = as.map Listed.seen) :
    CountedFor bs ↔ CountedFor as := by
  obtain ⟨hcount, hsessions, hmaps⟩ := seen_congr h
  have helements : ∀ dir, elements bs dir = elements as dir := fun dir => by
    cases dir <;> simp only [elements, hcount]
  simp only [CountedFor, hsessions, hmaps, helements, mapElements, hcount]

theorem startNet_quiet (bs : List Listed) : Quiet bs (startNet zeroMalloc bs) where
  array d := by
    refine ⟨(List.range (elements bs d)).map (zeroMalloc.contents d), ?_, by simp, ?_⟩
    · cases d <;> rfl
    · intro x hx
      obtain ⟨k, -, rfl⟩ := List.mem_map.mp hx
      exact Int.le_refl 0
  count d := Nat.zero_le _
  maps := Nat.zero_le _

/-- **The two passes.** No session index reaches behind its array, whatever the calls return,
exactly when the first pass counts an element for every session that the second may get to. -/
theorem passesAgree_iff (as : List Listed) : PassesAgree as ↔ CountedFor as := by
  constructor
  · intro h
    have hseen : (as.map fun a => { a with calls := quietCalls }).map Listed.seen =
        as.map Listed.seen := by
      rw [List.map_map]
      rfl
    rw [← countedFor_congr hseen]
    have hcalls : ∀ b ∈ as.map fun a => { a with calls := quietCalls }, b.calls = quietCalls := by
      intro b hb
      obtain ⟨a, -, rfl⟩ := List.mem_map.mp hb
      rfl
    obtain ⟨hown, hmap⟩ := room_of_within (startNet_quiet _) hcalls (h _ hseen zeroMalloc)
    exact ⟨fun dir => by simpa [startNet] using hown dir, by simpa [startNet] using hmap⟩
  · intro h bs hseen mem
    obtain ⟨hown, hmap⟩ := (countedFor_congr hseen).mpr h
    exact within_of_room (fun dir => by simpa [startNet] using hown dir)
      (by simpa [startNet] using hmap)

end Passes

theorem passesAgree_tunnels : PassesAgree twoEgress :=
  (passesAgree_iff twoEgress).mpr ⟨fun dir => by cases dir <;> decide, by decide⟩

/-- An egress peer that takes its packets from a pipe. -/
def pipePeer : PeerCtx :=
  (PeerCtx.copy ⟨1, 4, dirOut, 1, 1, 1, fun _ => 0⟩ .ifname "eth1" 255).copy .pipePath "/tmp/p" 255

/-- It has no element. -/
theorem passesAgree_fails : ¬ ∀ as, PassesAgree as := by
  intro hall
  obtain ⟨hroom, -⟩ := hall [⟨pipePeer, true, true, goodCalls⟩] _ rfl zeroMalloc
  exact absurd (hroom.own .egress (by decide)) (by decide)

end Lanes
