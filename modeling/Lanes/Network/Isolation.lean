import Lanes.Lib.Run
import Lanes.Network.Session
import Lanes.Ring.Pool

/-!
# Each session in its own element

`tx_session` and `rx_session` get the address of the global pointer and index through it, so that
only the first session of each direction finds its element. The second pass sets up every session in
its own element, and leaves the others alone, exactly as long as it meets no second session of a
direction.

## The idea

`enumerate_interfaces` passes `&TX` and `&RX`, and the set-up writes `TX[txc]->…` as if there were
an array of pointers at that address. `TX[0]` is the global, which points to element 0; `TX[1]` is
whatever lies behind the global in memory. `throughGlobal` is this map from numbers to elements,
and `Isolated` is about the step of one peer that uses it.

## The architecture

* **`Net.AtMostOne`**: up to the first bad peer each direction has at most one session, in element
  0. With that, every access of a first session is inside (`session_inside`) and the searches for
  an earlier tunnel look at element 0 at most (`exists_findFd`).
* **`session_outside_of_later`, `session_outside_of_empty`**: any other session leaves the array.
* **`isolated_iff`**: so one peer is set up in isolation exactly when it is the first of its
  direction, unless its set-up ends before it touches the array.
* **`sessionsIsolated_iff`**: the whole list, by `Run.Within` over the second pass.
-/

namespace Lanes

/-! ## The property

Isolation of one session is stated on the arrays before and after its step: what the step writes is
the element of its number, made from what that element held, and nothing else changes. A step that
ends the process writes nothing, but it must not have looked outside the arrays before. -/

/-- The direction whose session a peer gets. -/
def PeerCtx.dir? (peer : PeerCtx) : Option Dir :=
  if peer.direction = dirOut then some .egress
  else if peer.direction = dirIn then some .ingress
  else none

/-- What a direction does once the tunnel is open. -/
def Dir.tunnel : Dir → PeerCtx → SessionCalls → Int → Xq → Except Stop Xq
  | .egress => txTunnel
  | .ingress => rxTunnel

/-- The session is set up in the element of its number, from what that element held; every other
element of the two arrays stays. -/
structure InPlace (net : Net) (dir : Dir) (a : Listed) (net' : Net) : Prop where
  own : ∃ old x started af, net.element dir (net.count dir) = some old ∧ a.calls.af = some af ∧
    setUp throughGlobal dir dir.tunnel net a.peer a.calls (net.count dir) af old =
      .ok (x, started) ∧
    net'.element dir (net.count dir) = some x
  frame : ∀ d j, d ≠ dir ∨ j ≠ net.count dir → net'.element d j = net.element d j

/-- The code of one peer stays inside its arrays, and a session it sets up is in place. -/
def Isolated (net : Net) (a : Listed) : Prop :=
  Inside (enumerateStep throughGlobal net a) ∧
    ∀ net' dir, enumerateStep throughGlobal net a = .ok net' → a.peer.dir? = some dir →
      InPlace net dir a net'

/-- The second pass as a partial step: it ends with the process. -/
def enumerateNext (net : Net) (a : Listed) : Option Net :=
  (enumerateStep throughGlobal net a).toOption

/-- Every peer that the second pass gets to is set up in isolation. -/
def SessionsIsolated (mem : Malloc) (as : List Listed) : Prop :=
  Run.Within enumerateNext Isolated (startNet mem as) as

/-- The set-up ends the process before it touches the array. -/
def EndsEarly (net : Net) (dir : Dir) (a : Listed) : Prop :=
  net.array dir = none ∨ a.peer.isSet .ifname = false ∨ a.calls.af = none

/-- A session is the first of its direction, and the array has room for one. -/
def FirstSession (net : Net) (a : Listed) : Prop :=
  ∀ dir, a.peer.dir? = some dir →
    net.count dir = 0 ∧ (EndsEarly net dir a ∨ (net.element dir 0).isSome = true)

/-! ## Accesses through the global pointer

`Inside` composes over `bind`, so each part of the set-up is inside when its loads are. The loads
are those of the two searches and of the element itself. -/

/-- At most one session of each direction is set up, in element 0. -/
def Net.AtMostOne (net : Net) : Prop :=
  ∀ d, net.count d ≤ 1 ∧ (net.count d = 1 → (net.element d 0).isSome = true)

section Step

variable {net net' : Net} {dir : Dir} {a : Listed}

theorem initQueues_inside (threads mtu : Nat) (hdr : Headers) (calls : SessionCalls) (n : Nat) :
    Inside (initQueues threads mtu hdr calls n) := by
  induction n with
  | zero => exact inside_ok []
  | succ n ih =>
    exact ih.bind fun _ _ => (inside_orEnd _).bind fun _ _ => (inside_orEnd _).bind fun _ _ =>
      inside_ok _

/-- With the tunnel open only the element itself is written. -/
theorem tunnel_inside (dir : Dir) (peer : PeerCtx) (calls : SessionCalls) (fd : Int) (x : Xq) :
    Inside (dir.tunnel peer calls fd x) := by
  cases dir with
  | egress =>
    exact (inside_endUnless _).bind fun _ _ => (inside_endUnless _).bind fun _ _ =>
      (inside_orEnd _).bind fun _ _ => (initQueues_inside _ _ _ _ _).bind fun _ _ => inside_ok _
  | ingress =>
    exact (inside_orEnd _).bind fun _ _ => (initQueues_inside _ _ _ _ _).bind fun _ _ =>
      inside_ok _

/-- The search looks at element 0 at most. -/
theorem exists_findFd (hone : net.AtMostOne) (d : Dir) (peer : PeerCtx) (fd : Int) :
    ∃ fd', net.findFd throughGlobal d peer fd (net.count d) = .ok fd' := by
  obtain ⟨hle, hsome⟩ := hone d
  match hn : net.count d with
  | 0 => exact ⟨fd, rfl⟩
  | 1 =>
    obtain ⟨x, hx⟩ := Option.isSome_iff_exists.mp (hsome hn)
    obtain ⟨xs, hxs, hx⟩ := Option.bind_eq_some_iff.mp hx
    have hload : net.load throughGlobal d 0 = .ok x := by
      rw [Net.load, throughGlobal, hxs]
      exact orOutside_eq_ok.mpr hx
    exact ⟨_, bind_eq_ok.mpr ⟨fd, rfl, bind_eq_ok.mpr ⟨x, hload, rfl⟩⟩⟩
  | n + 2 => omega

theorem findFd_inside (hone : net.AtMostOne) (d : Dir) (peer : PeerCtx) (fd : Int) :
    Inside (net.findFd throughGlobal d peer fd (net.count d)) := by
  obtain ⟨fd', hfd⟩ := exists_findFd hone d peer fd
  rw [hfd]
  exact inside_ok fd'

theorem setUp_inside (hone : net.AtMostOne) (e : Nat) (af : Int) (x : Xq) :
    Inside (setUp throughGlobal dir dir.tunnel net a.peer a.calls e af x) := by
  refine (inside_endUnless _).bind fun _ _ => ?_
  dsimp only
  split
  · refine (findFd_inside hone _ _ _).bind fun fd _ =>
      (findFd_inside hone _ _ _).bind fun fd _ => ?_
    generalize (if fd < 1 then a.calls.tuntap else fd) = fd
    split
    · exact (tunnel_inside _ _ _ _ _).bind fun _ _ => inside_ok _
    · exact inside_ok _
  · split
    · exact inside_ok _
    · split
      · exact (inside_endUnless _).bind fun _ _ => inside_ok _
      · simp [Inside]

/-! ## One peer

`SetUpMade` lists what a set-up leaves in its element, without the calls that did not matter for
it; the count goes up by one. -/

theorem enumerateStep_of_dir (elem : Nat → Option Nat) (net : Net) (h : a.peer.dir? = some dir) :
    enumerateStep elem net a =
      (session elem dir dir.tunnel net a.peer a.calls).map (·.countUp dir) := by
  unfold PeerCtx.dir? at h
  unfold enumerateStep
  split at h
  · rename_i hout
    cases h
    rw [if_pos hout]
    rfl
  · rename_i hout
    split at h
    · rename_i hin
      cases h
      rw [if_neg hout, if_pos hin]
      rfl
    · cases h

theorem enumerateStep_of_none (elem : Nat → Option Nat) (net : Net) (h : a.peer.dir? = none) :
    ∃ ts, enumerateStep elem net a = .ok { net with threads := ts } := by
  unfold PeerCtx.dir? at h
  unfold enumerateStep
  split at h
  · cases h
  · rename_i hout
    split at h
    · cases h
    · rename_i hin
      rw [if_neg hout, if_neg hin]
      split
      · exact ⟨_, rfl⟩
      · exact ⟨net.threads, rfl⟩

/-- What a session that returns has done. -/
theorem session_cases {elem : Nat → Option Nat}
    (h : session elem dir dir.tunnel net a.peer a.calls = .ok net') :
    ∃ e xs af old x started, elem (net.count dir) = some e ∧ net.array dir = some xs ∧
      a.calls.af = some af ∧ xs[e]? = some old ∧
      setUp elem dir dir.tunnel net a.peer a.calls e af old = .ok (x, started) ∧
      net' = { net with
        array := Function.update net.array dir (some (xs.set e x))
        threads := net.threads ++ started } := by
  unfold session at h
  simp only [bind_eq_ok, orOutside_eq_ok, orEnd_eq_ok] at h
  obtain ⟨e, he, xs, hxs, -, -, af, haf, old, hold, ⟨x, started⟩, hx, hnet⟩ := h
  exact ⟨e, xs, af, old, x, started, he, hxs, haf, hold, hx, (Except.ok.inj hnet).symm⟩

/-- What a set-up that returns has made of its element, and the threads it has started. -/
inductive SetUpMade (elem : Nat → Option Nat) (dir : Dir) (net : Net) (peer : PeerCtx)
    (calls : SessionCalls) (e : Nat) (xs : Xq) : Xq → List Thread → Prop
  /-- The tunnel is one that a search found, or a new one. -/
  | tunnel (fd₁ fd₂ fd : Int) (x : Xq) (hset : peer.isSet .tifname = true)
      (hown : net.findFd elem dir peer calls.fd (net.count dir) = .ok fd₁)
      (hother : net.findFd elem dir.other peer fd₁ (net.count dir.other) = .ok fd₂)
      (hfd : fd = if fd₂ < 1 then calls.tuntap else fd₂) (hpos : 0 < fd)
      (hx : dir.tunnel peer calls fd xs = .ok x) :
      SetUpMade elem dir net peer calls e xs x (sessionThreads dir e x)
  | noTunnel (fd₁ fd₂ : Int) (hset : peer.isSet .tifname = true)
      (hown : net.findFd elem dir peer calls.fd (net.count dir) = .ok fd₁)
      (hother : net.findFd elem dir.other peer fd₁ (net.count dir.other) = .ok fd₂)
      (hneg : ¬ 0 < if fd₂ < 1 then calls.tuntap else fd₂) :
      SetUpMade elem dir net peer calls e xs xs []
  | socket (htun : peer.isSet .tifname = false) (hset : peer.isSet .socketPath = true) :
      SetUpMade elem dir net peer calls e xs xs []
  | pipe (htun : peer.isSet .tifname = false) (hset : peer.isSet .pipePath = true)
      (hopen : 0 ≤ calls.openPipe) :
      SetUpMade elem dir net peer calls e xs { xs with type := pipe, fd := calls.openPipe } []

theorem setUp_made {elem : Nat → Option Nat} {e : Nat} {af : Int} {old x : Xq}
    {started : List Thread}
    (h : setUp elem dir dir.tunnel net a.peer a.calls e af old = .ok (x, started)) :
    SetUpMade elem dir net a.peer a.calls e { old with af := af, mtu := a.calls.mtu } x
      started := by
  unfold setUp at h
  obtain ⟨-, -, h⟩ := bind_eq_ok.mp h
  dsimp only at h
  split at h
  · rename_i htun
    obtain ⟨fd₁, hown, h⟩ := bind_eq_ok.mp h
    obtain ⟨fd₂, hother, h⟩ := bind_eq_ok.mp h
    obtain ⟨fd, hfd⟩ : ∃ fd, fd = if fd₂ < 1 then a.calls.tuntap else fd₂ := ⟨_, rfl⟩
    rw [← hfd] at h
    split at h
    · rename_i hpos
      obtain ⟨x', hx, h⟩ := bind_eq_ok.mp h
      cases h
      exact .tunnel fd₁ fd₂ fd x htun hown hother hfd hpos hx
    · rename_i hneg
      cases h
      exact .noTunnel fd₁ fd₂ htun hown hother (hfd ▸ hneg)
  · rename_i htun
    rw [Bool.not_eq_true] at htun
    split at h
    · rename_i hsocket
      cases h
      exact .socket htun hsocket
    · split at h
      · rename_i hpipe
        obtain ⟨u, hopen, h⟩ := bind_eq_ok.mp h
        cases h
        refine .pipe htun hpipe ?_
        unfold endUnless at hopen
        split at hopen
        · exact of_decide_eq_true ‹_›
        · cases hopen
      · cases h

/-- A later session is read through a pointer that is not there. -/
theorem session_outside_of_later (h : net.count dir ≠ 0) :
    session throughGlobal dir dir.tunnel net a.peer a.calls = .error .outside := by
  unfold session throughGlobal
  rw [if_neg h]
  rfl

/-- The first session of an array without room is written behind the array. -/
theorem session_outside_of_empty (hzero : net.count dir = 0) (hearly : ¬ EndsEarly net dir a)
    (hempty : net.element dir 0 = none) :
    session throughGlobal dir dir.tunnel net a.peer a.calls = .error .outside := by
  simp only [EndsEarly, not_or, Bool.not_eq_false] at hearly
  obtain ⟨hnull, hset, haf⟩ := hearly
  obtain ⟨xs, hxs⟩ := Option.ne_none_iff_exists'.mp hnull
  obtain ⟨af, haf⟩ := Option.ne_none_iff_exists'.mp haf
  rw [Net.element, hxs, Option.bind_some] at hempty
  unfold session throughGlobal
  rw [if_pos hzero, hxs, hset, haf]
  show orOutside xs[0]? >>= _ = _
  rw [hempty]
  rfl

theorem session_inside (hone : net.AtMostOne) (hzero : net.count dir = 0)
    (hroom : EndsEarly net dir a ∨ (net.element dir 0).isSome = true) :
    Inside (session throughGlobal dir dir.tunnel net a.peer a.calls) := by
  unfold session throughGlobal
  rw [if_pos hzero]
  refine (inside_ok 0).bind fun e he => (inside_orEnd _).bind fun xs hxs => ?_
  refine (inside_endUnless _).bind fun _ hset => (inside_orEnd _).bind fun af haf => ?_
  rw [orEnd_eq_ok] at hxs haf
  refine Inside.bind ?_ fun old _ => (setUp_inside hone _ _ _).bind fun _ _ => inside_ok _
  rcases hroom with (hnull | hunset | hnone) | hsome
  · rw [hnull] at hxs
    cases hxs
  · rw [hunset] at hset
    cases hset
  · rw [hnone] at haf
    cases haf
  · cases he
    rw [Net.element, hxs, Option.bind_some] at hsome
    obtain ⟨x, hx⟩ := Option.isSome_iff_exists.mp hsome
    rw [hx]
    exact inside_ok x

/-- A session that returns is the first one, and is in place. -/
theorem session_inPlace (h : session throughGlobal dir dir.tunnel net a.peer a.calls = .ok net') :
    net.count dir = 0 ∧ InPlace net dir a (net'.countUp dir) ∧
      (net'.element dir 0).isSome = true ∧ net'.count = net.count := by
  obtain ⟨e, xs, af, old, x, started, he, hxs, haf, hold, hx, rfl⟩ := session_cases h
  have hzero : net.count dir = 0 ∧ e = 0 := by
    unfold throughGlobal at he
    split at he
    · rename_i hzero
      cases he
      exact ⟨hzero, rfl⟩
    · cases he
  obtain ⟨hzero, rfl⟩ := hzero
  have hlt : 0 < xs.length := (List.getElem?_eq_some_iff.mp hold).1
  have hnew : ({ net with
      array := Function.update net.array dir (some (xs.set 0 x))
      threads := net.threads ++ started } : Net).element dir 0 = some x := by
    simp [Net.element, hlt]
  refine ⟨hzero, ⟨⟨old, x, started, af, ?_, haf, ?_, ?_⟩, fun d j hdj => ?_⟩, ?_, rfl⟩
  · rw [hzero, Net.element, hxs]
    exact hold
  · rw [hzero]
    exact hx
  · rw [hzero]
    exact hnew
  · rw [hzero] at hdj
    by_cases hd : d = dir
    · subst hd
      have hj : 0 ≠ j := fun h0 => hdj.elim (fun h => h rfl) (fun h => h h0.symm)
      simp [Net.element, Net.countUp, hxs, List.getElem?_set_ne hj]
    · simp [Net.element, Net.countUp, Function.update_of_ne hd]
  · rw [hnew]
    rfl

theorem isolated_iff (hone : net.AtMostOne) : Isolated net a ↔ FirstSession net a := by
  constructor
  · rintro ⟨hinside, -⟩ dir hdir
    rw [enumerateStep_of_dir throughGlobal net hdir] at hinside
    by_cases hzero : net.count dir = 0
    · refine ⟨hzero, ?_⟩
      by_contra hroom
      rw [not_or, Option.not_isSome_iff_eq_none] at hroom
      rw [session_outside_of_empty hzero hroom.1 hroom.2] at hinside
      exact hinside rfl
    · -- from the second session on the element is taken behind the global pointer
      rw [session_outside_of_later hzero] at hinside
      exact absurd rfl hinside
  · intro hfirst
    cases hdir : a.peer.dir? with
    | none =>
      obtain ⟨ts, hstep⟩ := enumerateStep_of_none throughGlobal net hdir
      refine ⟨by rw [hstep]; exact inside_ok _, fun net' d _ hd => ?_⟩
      rw [hdir] at hd
      cases hd
    | some dir =>
      obtain ⟨hzero, hroom⟩ := hfirst dir hdir
      have hinside := session_inside hone hzero hroom
      have hstep := enumerateStep_of_dir throughGlobal net hdir
      cases hs : session throughGlobal dir dir.tunnel net a.peer a.calls with
      | error stop =>
        rw [hs] at hstep hinside
        refine ⟨by rw [hstep]; simpa [Inside, Except.map] using hinside, fun net' d hnet _ => ?_⟩
        rw [hstep] at hnet
        cases hnet
      | ok net₁ =>
        rw [hs] at hstep
        refine ⟨by rw [hstep]; exact inside_ok _, fun net' d hnet hd => ?_⟩
        rw [hdir] at hd
        rw [hstep] at hnet
        cases hd
        cases hnet
        exact (session_inPlace hs).2.1

theorem enumerateNext_atMostOne (hone : net.AtMostOne) (hstep : enumerateNext net a = some net') :
    net'.AtMostOne := by
  have hok : enumerateStep throughGlobal net a = .ok net' := by
    unfold enumerateNext at hstep
    cases h : enumerateStep throughGlobal net a with
    | error stop =>
      rw [h] at hstep
      cases hstep
    | ok net₁ =>
      rw [h] at hstep
      cases hstep
      rfl
  cases hdir : a.peer.dir? with
  | none =>
    obtain ⟨ts, hstep⟩ := enumerateStep_of_none throughGlobal net hdir
    rw [hstep] at hok
    cases hok
    exact hone
  | some dir =>
    rw [enumerateStep_of_dir throughGlobal net hdir] at hok
    cases hs : session throughGlobal dir dir.tunnel net a.peer a.calls with
    | error stop =>
      rw [hs] at hok
      cases hok
    | ok net₁ =>
      rw [hs] at hok
      cases hok
      -- a session that returned was the first of its direction
      obtain ⟨hzero, hplace, hsome, hcount⟩ := session_inPlace hs
      intro d
      by_cases hd : d = dir
      · subst hd
        refine ⟨?_, fun _ => hsome⟩
        simp [Net.countUp, hcount, hzero]
      · obtain ⟨hle, hroom⟩ := hone d
        have hc : (net₁.countUp dir).count d = net.count d := by
          simp [Net.countUp, hcount, Function.update_of_ne hd]
        rw [hc, hplace.frame d 0 (Or.inl hd)]
        exact ⟨hle, hroom⟩

end Step

/-! ## A session whose calls succeed

The converse: where `malloc`, the kernel and the name service all do what they are asked, the
set-up of a first session goes through. The results about whole lists need such a session. -/

/-- Nothing that a session with a tunnel asks for fails. -/
structure SessionCalls.Succeed (calls : SessionCalls) : Prop where
  af : calls.af = some 3
  tuntap : 0 < calls.tuntap
  mtu : 34 ≤ calls.mtu ∧ calls.mtu + 4 < 2 ^ 32
  set : calls.setIp = true ∧ calls.setMtu = true
  link : ∃ link, calls.link = some link
  queues : ∃ q, calls.queues = some q
  ring : ∀ j, calls.ring j = true

section Succeed

variable {net : Net} {dir : Dir} {peer : PeerCtx} {calls : SessionCalls}

theorem SessionCalls.Succeed.exists_queues (h : calls.Succeed) (threads : Nat) (hdr : Headers)
    (n : Nat) : ∃ qs, initQueues threads calls.mtu hdr calls n = .ok qs := by
  obtain ⟨q, hq⟩ := h.queues
  have hsize : bufSize / threads < 2 ^ 32 :=
    lt_of_le_of_lt (Nat.div_le_self _ _) (show bufSize < 2 ^ 32 by decide)
  induction n with
  | zero => exact ⟨[], rfl⟩
  | succ n ih =>
    obtain ⟨qs, hqs⟩ := ih
    have hring := initRingBuffer_eq (q n) hdr h.mtu.1 h.mtu.2 hsize
    rw [← h.ring n] at hring
    exact ⟨_, bind_eq_ok.mpr ⟨qs, hqs, bind_eq_ok.mpr ⟨q, orEnd_eq_ok.mpr hq,
      bind_eq_ok.mpr ⟨_, orEnd_eq_ok.mpr hring, rfl⟩⟩⟩⟩

theorem SessionCalls.Succeed.exists_tunnel (h : calls.Succeed) (dir : Dir) (peer : PeerCtx)
    (fd : Int) {x : Xq} (hmtu : x.mtu = calls.mtu) : ∃ x', dir.tunnel peer calls fd x = .ok x' := by
  obtain ⟨link, hlink⟩ := h.link
  obtain ⟨qs, hqs⟩ := h.exists_queues peer.threads.toNat
    (fillHeaders peer.myip peer.peerip link) peer.threads.toNat
  rw [← hmtu] at hqs
  cases dir with
  | egress =>
    refine ⟨_, bind_eq_ok.mpr ⟨(), ?_, bind_eq_ok.mpr ⟨(), ?_, bind_eq_ok.mpr
      ⟨link, orEnd_eq_ok.mpr hlink, bind_eq_ok.mpr ⟨qs, hqs, rfl⟩⟩⟩⟩⟩
    · rw [h.set.1]
      rfl
    · rw [h.set.2]
      rfl
  | ingress =>
    exact ⟨_, bind_eq_ok.mpr ⟨link, orEnd_eq_ok.mpr hlink, bind_eq_ok.mpr ⟨qs, hqs, rfl⟩⟩⟩

/-- A session is set up when its element is there and `setUp` returns. -/
theorem session_of_setUp {elem : Nat → Option Nat} {e : Nat} {af : Int} {xs : List Xq} {x : Xq}
    {started : List Thread} (helem : elem (net.count dir) = some e)
    (hxs : net.array dir = some xs) (he : e < xs.length) (hif : peer.isSet .ifname = true)
    (haf : calls.af = some af)
    (hsetUp : setUp elem dir dir.tunnel net peer calls e af xs[e] = .ok (x, started)) :
    session elem dir dir.tunnel net peer calls = .ok { net with
      array := Function.update net.array dir (some (xs.set e x))
      threads := net.threads ++ started } := by
  refine bind_eq_ok.mpr ⟨e, orOutside_eq_ok.mpr helem, bind_eq_ok.mpr ⟨xs, orEnd_eq_ok.mpr hxs,
    bind_eq_ok.mpr ⟨(), ?_, bind_eq_ok.mpr ⟨af, orEnd_eq_ok.mpr haf,
      bind_eq_ok.mpr ⟨_, orOutside_eq_ok.mpr (List.getElem?_eq_getElem he),
        bind_eq_ok.mpr ⟨_, hsetUp, rfl⟩⟩⟩⟩⟩⟩
  rw [hif]
  rfl

/-- A session with a tunnel is set up when its calls succeed, its element is there and the two
searches for the tunnel stay inside. -/
theorem exists_session_found {elem : Nat → Option Nat} {e : Nat} {xs : List Xq} (h : calls.Succeed)
    (helem : elem (net.count dir) = some e) (hxs : net.array dir = some xs) (he : e < xs.length)
    (hown : ∀ fd, ∃ fd', net.findFd elem dir peer fd (net.count dir) = .ok fd')
    (hother : ∀ fd, ∃ fd', net.findFd elem dir.other peer fd (net.count dir.other) = .ok fd')
    (hif : peer.isSet .ifname = true) (htun : peer.isSet .tifname = true) :
    ∃ net' x, session elem dir dir.tunnel net peer calls = .ok net' ∧
      net'.array = Function.update net.array dir (some (xs.set e x)) ∧ net'.count = net.count := by
  obtain ⟨fd₁, hfd₁⟩ := hown calls.fd
  obtain ⟨fd₂, hfd₂⟩ := hother fd₁
  -- a tunnel of an earlier session, or the new one
  have hfd : 0 < if fd₂ < 1 then calls.tuntap else fd₂ := by
    split
    · exact h.tuntap
    · omega
  obtain ⟨x, hx⟩ := h.exists_tunnel dir peer (if fd₂ < 1 then calls.tuntap else fd₂)
    (x := { xs[e] with af := 3, mtu := calls.mtu }) rfl
  have hsetUp : setUp elem dir dir.tunnel net peer calls e 3 xs[e] =
      .ok (x, sessionThreads dir e x) := by
    refine bind_eq_ok.mpr ⟨(), rfl, ?_⟩
    dsimp only
    rw [if_pos htun]
    refine bind_eq_ok.mpr ⟨fd₁, hfd₁, bind_eq_ok.mpr ⟨fd₂, hfd₂, ?_⟩⟩
    rw [if_pos hfd]
    exact bind_eq_ok.mpr ⟨x, hx, rfl⟩
  exact ⟨_, x, session_of_setUp helem hxs he hif h.af hsetUp, rfl, rfl⟩

/-- The first session of a direction is set up when its calls succeed. -/
theorem exists_session (h : calls.Succeed) (hone : net.AtMostOne) (hzero : net.count dir = 0)
    (hroom : (net.element dir 0).isSome = true) (hif : peer.isSet .ifname = true)
    (htun : peer.isSet .tifname = true) :
    ∃ net', session throughGlobal dir dir.tunnel net peer calls = .ok net' := by
  obtain ⟨old, hold⟩ := Option.isSome_iff_exists.mp hroom
  obtain ⟨xs, hxs, hold⟩ := Option.bind_eq_some_iff.mp hold
  obtain ⟨hlt, -⟩ := List.getElem?_eq_some_iff.mp hold
  have helem : throughGlobal (net.count dir) = some 0 := if_pos hzero
  obtain ⟨net', x, hnet', -⟩ := exists_session_found h helem hxs hlt
    (exists_findFd hone dir peer) (exists_findFd hone dir.other peer) hif htun
  exact ⟨net', hnet'⟩

end Succeed

/-! ## The second pass

Each peer is set up in the arrays that the peers before it left; `Run.Within` is the statement that
no peer met on the way is outside. -/

/-- For every list of peers and whatever the calls return, the second pass sets up each session in
its own element exactly as long as every session it gets to is the first of its direction and finds
room, or ends the process before it is written. -/
theorem sessionsIsolated_iff (mem : Malloc) (as : List Listed) :
    SessionsIsolated mem as ↔
      Run.Within enumerateNext FirstSession (startNet mem as) as :=
  Run.within_congr Net.AtMostOne (fun _ _ hone => isolated_iff hone)
    (fun _ _ _ hone _ hstep => enumerateNext_atMostOne hone hstep)
    (fun _ => ⟨Nat.zero_le 1, fun h => absurd h.symm Nat.one_ne_zero⟩) as

/-- A peer with a tunnel on `eth1` and one worker. -/
def tunnelPeer (direction : Int) (tap : CStr) : PeerCtx :=
  (PeerCtx.copy ⟨1, 4, direction, 1, 1, 1, fun _ => 0⟩ .ifname "eth1" 255).copy .tifname tap 255

def zeroMac : Mac := Vector.replicate 6 0

/-- The calls for a session on an interface of MTU 1500. -/
def goodCalls : SessionCalls where
  af := some 3
  mtu := 1500
  fd := 0
  tuntap := 4
  ifMac := zeroMac
  tunMac := zeroMac
  ifindex := 2
  setIp := true
  setMtu := true
  link := some ⟨zeroMac, none⟩
  queues := some fun _ => emptyRing 3 1500
  ring _ := true
  openPipe := -1

theorem goodCalls_succeed : goodCalls.Succeed :=
  ⟨rfl, by decide, by decide, ⟨rfl, rfl⟩, ⟨_, rfl⟩, ⟨_, rfl⟩, fun _ => rfl⟩

/-- The memory for the arrays is full of zeros. -/
def zeroMalloc : Malloc where
  null _ := false
  contents _ _ :=
    { type := 0
      ifname := []
      tifname := []
      fd := 0
      af := 0
      mtu := 0
      tmtu := 0
      qnum := 0
      peerIp := 0
      myIp := 0
      lbDelay := (0, 0)
      sll := ⟨0, 0, 0, 0, zeroMac⟩
      pcx := ⟨0, 0, 0, 0, 0, 0, fun _ => 0⟩
      q := [] }

/-- Two egress peers, each with a tunnel of its own. -/
def twoEgress : List Listed :=
  [⟨tunnelPeer dirOut "tap0", true, true, goodCalls⟩,
    ⟨tunnelPeer dirOut "tap1", true, true, goodCalls⟩]

/-- The second session is read through the pointer behind `TX`. -/
theorem sessionsIsolated_fails : ¬ ∀ mem as, SessionsIsolated mem as := by
  intro hall
  obtain ⟨-, hnext⟩ := hall zeroMalloc twoEgress
  have hone : (startNet zeroMalloc twoEgress).AtMostOne :=
    fun _ => ⟨Nat.zero_le 1, fun h => absurd h.symm Nat.one_ne_zero⟩
  obtain ⟨net, hnet⟩ : ∃ net, session throughGlobal .egress (Dir.tunnel .egress)
      (startNet zeroMalloc twoEgress) (tunnelPeer dirOut "tap0") goodCalls = .ok net :=
    exists_session goodCalls_succeed hone rfl (by decide) (by decide) (by decide)
  have hfirst : enumerateNext (startNet zeroMalloc twoEgress)
      ⟨tunnelPeer dirOut "tap0", true, true, goodCalls⟩ = some (net.countUp .egress) := by
    have hdir : (tunnelPeer dirOut "tap0").dir? = some .egress := rfl
    rw [enumerateNext, enumerateStep_of_dir throughGlobal _ hdir, hnet]
    rfl
  obtain ⟨⟨hinside, -⟩, -⟩ := hnext _ hfirst
  have hdir : (tunnelPeer dirOut "tap1").dir? = some .egress := rfl
  have hlater : (net.countUp .egress).count .egress ≠ 0 := by simp [Net.countUp]
  rw [enumerateStep_of_dir throughGlobal _ hdir, session_outside_of_later hlater] at hinside
  exact hinside rfl

end Lanes
