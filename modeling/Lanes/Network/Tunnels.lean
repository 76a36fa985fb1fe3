import Lanes.Network.Passes

/-!
# Tunnels shared by name

`tx_session` and `rx_session` look for an earlier session with the tunnel of the peer, in their own
array and then in the other one, and call `tuntap` if the local variable `fd` is still below 1 after
it. Nothing assigns that variable before the searches, so that a session that finds nothing decides
by what the stack held.

The second pass is taken here with each session in its own element, so that what is decided is the
sharing alone.

* **`search_cases`**: the two searches keep the value `fd` had, or end with the descriptor of an
  earlier session with that tunnel.
* **`SetUpFor before net`**: the sessions of the peers `before` are set up and each has its tunnel.
  `SetUpFor.next` is the step.
* **`SetUpFor.count_tuntapCalls`, `SetUpFor.shared`**: how often `tuntap` is called with a name, and
  that a descriptor belongs to one name. Both are inductions over the peers still to come.
* **`sharedByName_iff`**: the tunnels are shared by name, and opened once each, exactly when the
  first session with each name happens to find a value below 1.
-/

namespace Lanes

/-! ## Sessions with tunnels

`tuntap` is a call to the kernel; it is a parameter that returns a new descriptor each time. -/

/-- The name that the searches compare, at most `IFNAMSIZ` bytes. -/
def Listed.tunnel (a : Listed) : CStr := a.peer.str .tifname

/-- The peers have sessions, with tunnels, and each call of `tuntap` returns a new descriptor. -/
structure FreshTunnels (as : List Listed) : Prop where
  session : ∀ a ∈ as, ∃ dir, a.peer.dir? = some dir
  isSet : ∀ a ∈ as, a.peer.isSet .tifname = true
  positive : ∀ a ∈ as, 0 < a.calls.tuntap
  fresh : (as.map fun a => a.calls.tuntap).Nodup

/-- The second pass over these peers, each session in its own element. -/
def setUpAll (net : Net) (as : List Listed) : Except Stop Net := as.foldlM (enumerateStep some) net

/-- A session that is set up has this tunnel and this descriptor. -/
def Net.HasTunnel (net : Net) (name : CStr) (fd : Int) : Prop :=
  ∃ d k x, k < net.count d ∧ net.element d k = some x ∧ cstr x.tifname = name ∧ x.fd = fd

/-- What the two searches make of the local `fd`. -/
def Net.search (net : Net) (dir : Dir) (peer : PeerCtx) (fd : Int) : Except Stop Int := do
  let fd ← net.findFd some dir peer fd (net.count dir)
  net.findFd some dir.other peer fd (net.count dir.other)

/-- The session calls `tuntap`. -/
def Net.opens (net : Net) (a : Listed) : Bool :=
  match a.peer.dir? with
  | none => false
  | some dir =>
    match net.search dir a.peer a.calls.fd with
    | .ok fd => fd < 1
    | .error _ => false

/-- The names that `tuntap` is called with, in order. -/
def tuntapCalls (net : Net) : List Listed → List CStr
  | [] => []
  | a :: as =>
    (if net.opens a then [a.tunnel] else []) ++
      match enumerateStep some net a with
      | .ok net' => tuntapCalls net' as
      | .error _ => []

/-- Two sessions have the same descriptor exactly when they have the same tunnel. -/
def SharedByName (net : Net) : Prop :=
  ∀ name fd name' fd', net.HasTunnel name fd → net.HasTunnel name' fd' → (fd = fd' ↔ name = name')

/-- `tuntap` is called once for each name. -/
def OpenedOnce (net : Net) (as : List Listed) : Prop :=
  ∀ name, (tuntapCalls net as).count name = if name ∈ as.map Listed.tunnel then 1 else 0

/-- The first session with a tunnel of this name. -/
def opener (as : List Listed) (name : CStr) : Option Listed := as.find? fun a => a.tunnel == name

/-- Every session that is the first with its tunnel finds a value below 1 in its local `fd`. -/
def FirstsOpen (as : List Listed) : Prop := ∀ name a, opener as name = some a → a.calls.fd < 1

/-- The elements of the sessions set up so far hold a descriptor and a name. -/
def Net.Opened (net : Net) : Prop :=
  ∀ d k x, k < net.count d → net.element d k = some x → 0 < x.fd ∧ x.tifname.length = ifNamSiz

section Tunnels

variable {net net' : Net} {dir : Dir} {a : Listed} {as before : List Listed} {peer : PeerCtx}
  {calls : SessionCalls} {name : CStr} {fd fd' : Int}

/-- A peer whose session opens its tunnel or finds it open. -/
structure Listed.Tunnelled (a : Listed) : Prop where
  session : ∃ dir, a.peer.dir? = some dir
  isSet : a.peer.isSet .tifname = true
  positive : 0 < a.calls.tuntap

theorem FreshTunnels.tunnelled (h : FreshTunnels as) : ∀ a ∈ as, a.Tunnelled := fun a ha =>
  ⟨h.session a ha, h.isSet a ha, h.positive a ha⟩

/-! ## The first session with a name

Only this one can decide by what the stack held: a later one finds the tunnel. -/

@[simp] theorem opener_cons_self : opener (a :: as) a.tunnel = some a := by
  simp [opener]

theorem opener_cons_of_ne (h : name ≠ a.tunnel) : opener (a :: as) name = opener as name :=
  List.find?_cons_of_neg fun heq => h (beq_iff_eq.mp heq).symm

theorem opener_mem (h : opener as name = some a) : name ∈ as.map Listed.tunnel := by
  have hname := List.find?_some h
  exact List.mem_map.mpr ⟨a, List.mem_of_find?_eq_some h, beq_iff_eq.mp hname⟩

theorem opener_not_mem (h : opener as name = none) : name ∉ as.map Listed.tunnel := fun hmem => by
  obtain ⟨a, ha, rfl⟩ := List.mem_map.mp hmem
  exact List.find?_eq_none.mp h a ha (beq_self_eq_true a.tunnel)

/-! ## The searches

A search runs over all elements below the count and does not stop at a hit, so the last hit counts.
Its comparison is over the whole field, where the names are padded, hence exact. -/

/-- A search keeps the value it starts with, or ends with the descriptor of a session that has the
tunnel. -/
theorem findFd_cases {n : Nat} (h : net.findFd some dir peer fd n = .ok fd') :
    (fd' = fd ∧ ∀ k < n, ∀ x, net.element dir k = some x → 0 < x.fd →
        strncmpEq (cstr x.tifname) (peer.str .tifname) ifNamSiz ≠ true) ∨
      ∃ k < n, ∃ x, net.element dir k = some x ∧ 0 < x.fd ∧
        strncmpEq (cstr x.tifname) (peer.str .tifname) ifNamSiz = true ∧ fd' = x.fd := by
  induction n generalizing fd' with
  | zero =>
    cases h
    exact Or.inl ⟨rfl, nofun⟩
  | succ n ih =>
    obtain ⟨fd₁, hfd₁, h⟩ := bind_eq_ok.mp h
    obtain ⟨x, hload, h⟩ := bind_eq_ok.mp h
    have helement : net.element dir n = some x := by
      obtain ⟨e, he, hload⟩ := bind_eq_ok.mp hload
      obtain ⟨xs, hxs, hx⟩ := bind_eq_ok.mp hload
      rw [orOutside_eq_ok] at he hx
      cases he
      rw [Net.element, orEnd_eq_ok.mp hxs]
      exact hx
    obtain rfl := Except.ok.inj h
    split
    · rename_i hmatch
      exact Or.inr ⟨n, Nat.lt_succ_self n, x, helement, hmatch.1, hmatch.2, rfl⟩
    · rename_i hmatch
      rcases ih hfd₁ with ⟨rfl, hnone⟩ | ⟨k, hk, y, hy⟩
      · refine Or.inl ⟨rfl, fun k hk y hy hpos hname => ?_⟩
        rcases Nat.lt_succ_iff_lt_or_eq.mp hk with hlt | rfl
        · exact hnone k hlt y hy hpos hname
        · rw [helement] at hy
          cases hy
          exact hmatch ⟨hpos, hname⟩
      · exact Or.inr ⟨k, Nat.lt_succ_of_lt hk, y, hy⟩

theorem dir_or_other (d dir : Dir) : d = dir ∨ d = dir.other := by
  cases d <;> cases dir <;> simp [Dir.other]

/-- In an element that is set up the comparison is that of the names. -/
theorem Net.Opened.strncmp (ho : net.Opened) {d : Dir} {k : Nat} {x : Xq} (hk : k < net.count d)
    (hx : net.element d k = some x) :
    strncmpEq (cstr x.tifname) (peer.str .tifname) ifNamSiz = true ↔
      cstr x.tifname = peer.str .tifname :=
  strncmpEq_iff_eq ((cstr_length_le _).trans (ho d k x hk hx).2.le)
    ((cstr_length_le _).trans (by rw [Mem.read_length]; exact Nat.le_refl _))

/-- Both searches together find a session with the tunnel, or there is none and `fd` is as it
was. -/
theorem search_cases (ho : net.Opened) (h : net.search dir peer fd = .ok fd') :
    (fd' = fd ∧ ∀ g, ¬ net.HasTunnel (peer.str .tifname) g) ∨
      (0 < fd' ∧ net.HasTunnel (peer.str .tifname) fd') := by
  obtain ⟨fd₁, hown, hother⟩ := bind_eq_ok.mp h
  have hfound : ∀ d, (∃ k < net.count d, ∃ x, net.element d k = some x ∧ 0 < x.fd ∧
      strncmpEq (cstr x.tifname) (peer.str .tifname) ifNamSiz = true ∧ fd' = x.fd) →
      0 < fd' ∧ net.HasTunnel (peer.str .tifname) fd' := by
    rintro d ⟨k, hk, x, hx, hpos, hname, rfl⟩
    exact ⟨hpos, d, k, x, hk, hx, (ho.strncmp hk hx).mp hname, rfl⟩
  rcases findFd_cases hother with ⟨rfl, hnone⟩ | hmatch
  · rcases findFd_cases hown with ⟨rfl, hnoneOwn⟩ | hmatch
    · refine Or.inl ⟨rfl, fun g ⟨d, k, x, hk, hx, hname, _⟩ => ?_⟩
      have hpos := (ho d k x hk hx).1
      rw [← ho.strncmp hk hx] at hname
      rcases dir_or_other d dir with rfl | rfl
      · exact hnoneOwn k hk x hx hpos hname
      · exact hnone k hk x hx hpos hname
    · exact Or.inr (hfound _ hmatch)
  · exact Or.inr (hfound _ hmatch)

/-! ## One session

What a session leaves in its element is the name of its tunnel, and the descriptor it found or
opened. -/

theorem tunnel_fields {x xs : Xq} (h : dir.tunnel peer calls fd xs = .ok x) :
    x.fd = fd ∧ x.tifname = peer.text.read Field.tifname.off ifNamSiz := by
  cases dir with
  | egress =>
    obtain ⟨-, -, h⟩ := bind_eq_ok.mp h
    obtain ⟨-, -, h⟩ := bind_eq_ok.mp h
    obtain ⟨link, -, h⟩ := bind_eq_ok.mp h
    obtain ⟨qs, -, h⟩ := bind_eq_ok.mp h
    cases h
    exact ⟨rfl, rfl⟩
  | ingress =>
    obtain ⟨link, -, h⟩ := bind_eq_ok.mp h
    obtain ⟨qs, -, h⟩ := bind_eq_ok.mp h
    cases h
    exact ⟨rfl, rfl⟩

/-- The element of the new session joins those set up before it, which stay. -/
theorem countUp_element {xs : List Xq} {x : Xq} {ts : List Thread} (hxs : net.array dir = some xs)
    (hlt : net.count dir < xs.length) (d : Dir) (k : Nat) (y : Xq) :
    let net' : Net := { net with
      array := Function.update net.array dir (some (xs.set (net.count dir) x))
      threads := ts }
    (k < (net'.countUp dir).count d ∧ (net'.countUp dir).element d k = some y) ↔
      (k < net.count d ∧ net.element d k = some y) ∨ (d = dir ∧ k = net.count dir ∧ y = x) := by
  by_cases hd : d = dir
  · subst hd
    by_cases hk : k = net.count d
    · subst hk
      simp [Net.countUp, Net.element, hlt, eq_comm]
    · have hiff : k < net.count d + 1 ↔ k < net.count d := by omega
      simp [Net.countUp, Net.element, hxs, List.getElem?_set_ne (Ne.symm hk), hiff, hk]
  · simp [Net.countUp, Net.element, hd]

/-- One more element is one more entry. -/
theorem hasTunnel_iff {d₀ : Dir} {k₀ : Nat} {x : Xq}
    (helement : ∀ d k y, (k < net'.count d ∧ net'.element d k = some y) ↔
      (k < net.count d ∧ net.element d k = some y) ∨ (d = d₀ ∧ k = k₀ ∧ y = x)) (name : CStr)
    (g : Int) :
    net'.HasTunnel name g ↔ net.HasTunnel name g ∨ (name = cstr x.tifname ∧ g = x.fd) := by
  constructor
  · rintro ⟨d, k, y, hk, hy, hname, hg⟩
    rcases (helement d k y).mp ⟨hk, hy⟩ with ⟨hk, hy⟩ | ⟨-, -, rfl⟩
    · exact Or.inl ⟨d, k, y, hk, hy, hname, hg⟩
    · exact Or.inr ⟨hname.symm, hg.symm⟩
  · rintro (⟨d, k, y, hk, hy, hname, hg⟩ | ⟨hname, hg⟩)
    · obtain ⟨hk, hy⟩ := (helement d k y).mpr (Or.inl ⟨hk, hy⟩)
      exact ⟨d, k, y, hk, hy, hname, hg⟩
    · obtain ⟨hk, hy⟩ := (helement d₀ k₀ x).mpr (Or.inr ⟨rfl, rfl, rfl⟩)
      exact ⟨d₀, k₀, x, hk, hy, hname.symm, hg.symm⟩

/-- A session with a tunnel adds one entry. It shares the descriptor of an earlier session with
that tunnel; without one it takes what the local `fd` holds, and a new descriptor only if that is
below 1. -/
theorem session_tunnel (ho : net.Opened) (ha : a.Tunnelled)
    (hstep : enumerateStep some net a = .ok net') :
    net'.Opened ∧ ∃ fd,
      (∀ name g, net'.HasTunnel name g ↔ net.HasTunnel name g ∨ (name = a.tunnel ∧ g = fd)) ∧
      ((net.HasTunnel a.tunnel fd ∧ net.opens a = false) ∨
        ((∀ g, ¬ net.HasTunnel a.tunnel g) ∧ net.opens a = decide (a.calls.fd < 1) ∧
          fd = if a.calls.fd < 1 then a.calls.tuntap else a.calls.fd)) := by
  obtain ⟨dir, hdir⟩ := ha.session
  rw [enumerateStep_of_dir some net hdir] at hstep
  cases hs : session some dir dir.tunnel net a.peer a.calls with
  | error stop =>
    rw [hs] at hstep
    cases hstep
  | ok net₁ =>
    rw [hs] at hstep
    cases hstep
    obtain ⟨e, xs, af, old, x, started, he, hxs, -, hold, hx, rfl⟩ := session_cases hs
    cases he
    have helement := @countUp_element net dir xs x (net.threads ++ started) hxs
      (List.getElem?_eq_some_iff.mp hold).1
    cases setUp_made hx with
    | tunnel fd₁ fd₂ fd _ _ hown hother hfd hfdPos hmade =>
      obtain ⟨hxfd, hxname⟩ := tunnel_fields hmade
      have hsearch : net.search dir a.peer a.calls.fd = .ok fd₂ :=
        bind_eq_ok.mpr ⟨fd₁, hown, hother⟩
      have hopens : net.opens a = decide (fd₂ < 1) := by
        simp only [Net.opens, hdir, hsearch]
      refine ⟨fun d k y hk hy => ?_, fd, fun name g => ?_, ?_⟩
      · rcases (helement d k y).mp ⟨hk, hy⟩ with ⟨hk, hy⟩ | ⟨-, -, rfl⟩
        · exact ho d k y hk hy
        · rw [hxfd, hxname, Mem.read_length]
          exact ⟨hfdPos, rfl⟩
      · rw [hasTunnel_iff helement, hxfd, hxname]
        rfl
      · rcases search_cases ho hsearch with ⟨rfl, hnone⟩ | ⟨hfound, htunnel⟩
        · exact Or.inr ⟨hnone, hopens, hfd⟩
        · -- an earlier session has it
          have hnot : ¬ fd₂ < 1 := by omega
          rw [if_neg hnot] at hfd
          exact Or.inl ⟨hfd ▸ htunnel, by rw [hopens, decide_eq_false hnot]⟩
    | noTunnel fd₁ fd₂ _ _ _ hneg =>
      refine absurd ?_ hneg
      split
      · exact ha.positive
      · omega
    | socket htun =>
      rw [ha.isSet] at htun
      cases htun
    | pipe htun =>
      rw [ha.isSet] at htun
      cases htun

/-! ## All sessions

The invariant of the second pass over these peers, and the two results about its end. -/

/-- The sessions set up so far are those of the peers in `before`. -/
structure SetUpFor (before : List Listed) (net : Net) : Prop where
  opened : net.Opened
  names : ∀ name, (∃ fd, net.HasTunnel name fd) ↔ name ∈ before.map Listed.tunnel

theorem SetUpFor.start (hzero : ∀ d, net.count d = 0) : SetUpFor [] net where
  opened d k x hk := by
    rw [hzero d] at hk
    cases hk
  names name := by
    refine iff_of_false (fun ⟨fd, d, k, x, hk, _⟩ => ?_) List.not_mem_nil
    rw [hzero d] at hk
    cases hk

theorem SetUpFor.not_mem (h : SetUpFor before net) (hnone : ∀ fd, ¬ net.HasTunnel name fd) :
    name ∉ before.map Listed.tunnel := fun hmem => by
  obtain ⟨fd, hfd⟩ := (h.names name).mpr hmem
  exact hnone fd hfd

/-- The next session opens its tunnel if it is the first with it and `fd` is below 1. -/
theorem SetUpFor.next (h : SetUpFor before net) (ha : a.Tunnelled)
    (hstep : enumerateStep some net a = .ok net') :
    SetUpFor (before ++ [a]) net' ∧
      net.opens a = decide (a.tunnel ∉ before.map Listed.tunnel ∧ a.calls.fd < 1) := by
  obtain ⟨hopened, fd, hnext, hcases⟩ := session_tunnel h.opened ha hstep
  refine ⟨⟨hopened, fun name => ?_⟩, ?_⟩
  · simp only [hnext, List.map_append, List.mem_append, List.map_cons, List.map_nil,
      List.mem_singleton, ← h.names name]
    constructor
    · rintro ⟨g, hg | ⟨hname, -⟩⟩
      · exact Or.inl ⟨g, hg⟩
      · exact Or.inr hname
    · rintro (⟨g, hg⟩ | hname)
      · exact ⟨g, Or.inl hg⟩
      · exact ⟨fd, Or.inr ⟨hname, rfl⟩⟩
  · rcases hcases with ⟨hhas, hopens⟩ | ⟨hnone, hopens, -⟩
    · rw [hopens, eq_comm, decide_eq_false_iff_not]
      exact fun hnew => hnew.1 ((h.names _).mp ⟨fd, hhas⟩)
    · rw [hopens]
      simp [h.not_mem hnone]

/-- How often `tuntap` is called with a name from here on: never again for a name already set up,
else once if the session that comes first finds `fd` below 1. -/
theorem SetUpFor.count_tuntapCalls (h : SetUpFor before net) (has : ∀ a ∈ as, a.Tunnelled)
    (hrun : setUpAll net as = .ok net') (name : CStr) :
    (tuntapCalls net as).count name =
      if name ∈ before.map Listed.tunnel then 0
      else (opener as name).elim 0 fun a => if a.calls.fd < 1 then 1 else 0 := by
  induction as generalizing before net with
  | nil => simp [tuntapCalls, opener]
  | cons a as ih =>
    obtain ⟨net₁, hstep, hrest⟩ := bind_eq_ok.mp hrun
    obtain ⟨ha, has⟩ := List.forall_mem_cons.mp has
    obtain ⟨hnext, hopens⟩ := h.next ha hstep
    have hlater := ih hnext has hrest
    rw [tuntapCalls, hstep, List.count_append, hlater, hopens]
    simp only [List.map_append, List.map_cons, List.map_nil, List.mem_append, List.mem_singleton]
    by_cases hseen : name ∈ before.map Listed.tunnel
    · -- already set up
      have hnone : List.count name (if decide (a.tunnel ∉ before.map Listed.tunnel ∧
          a.calls.fd < 1) = true then [a.tunnel] else []) = 0 := by
        split
        · rename_i hnew
          refine List.count_eq_zero_of_not_mem fun hmem => ?_
          rw [List.mem_singleton.mp hmem] at hseen
          exact (of_decide_eq_true hnew).1 hseen
        · rfl
      rw [hnone, if_pos (Or.inl hseen), if_pos hseen]
    · by_cases hname : name = a.tunnel
      · subst hname
        rw [if_pos (Or.inr rfl), if_neg hseen, opener_cons_self, Option.elim_some]
        by_cases hfd : a.calls.fd < 1 <;> simp [hseen, hfd]
      · rw [if_neg (not_or.mpr ⟨hseen, hname⟩), if_neg hseen, opener_cons_of_ne hname]
        split <;> simp [Ne.symm hname]

/-- While new descriptors go to new names only, no two names share one. -/
theorem SetUpFor.shared (h : SetUpFor before net) (hshared : SharedByName net)
    (hfrom : ∀ name fd, net.HasTunnel name fd → fd ∈ before.map fun a => a.calls.tuntap)
    (has : ∀ a ∈ as, a.Tunnelled)
    (hfresh : ((before ++ as).map fun a => a.calls.tuntap).Nodup)
    (hfirst : ∀ name a, name ∉ before.map Listed.tunnel → opener as name = some a →
      a.calls.fd < 1)
    (hrun : setUpAll net as = .ok net') : SharedByName net' := by
  induction as generalizing before net with
  | nil =>
    cases hrun
    exact hshared
  | cons a as ih =>
    obtain ⟨net₁, hstep, hrest⟩ := bind_eq_ok.mp hrun
    obtain ⟨ha, has⟩ := List.forall_mem_cons.mp has
    obtain ⟨-, fd, hnext, hcases⟩ := session_tunnel h.opened ha hstep
    have hopen : net.HasTunnel a.tunnel fd ∨
        (∀ g, ¬ net.HasTunnel a.tunnel g) ∧ fd = a.calls.tuntap := by
      rcases hcases with ⟨hhas, -⟩ | ⟨hnone, -, hfd⟩
      · exact Or.inl hhas
      · rw [if_pos (hfirst a.tunnel a (h.not_mem hnone) opener_cons_self)] at hfd
        exact Or.inr ⟨hnone, hfd⟩
    -- the entry of this session agrees with those before it
    have hnew : ∀ name g, net.HasTunnel name g → (g = fd ↔ name = a.tunnel) := by
      intro name g hg
      rcases hopen with hhas | ⟨hnone, hfd⟩
      · exact hshared name g a.tunnel fd hg hhas
      · refine iff_of_false (fun hgfd => ?_) fun hname => hnone g (hname ▸ hg)
        rw [List.map_append, List.nodup_append] at hfresh
        exact hfresh.2.2 g (hfrom name g hg) a.calls.tuntap (by simp) (hgfd.trans hfd)
    refine ih (h.next ha hstep).1 ?_ ?_ has (by simpa using hfresh) ?_ hrest
    · rintro name g name' g' hg hg'
      rcases (hnext name g).mp hg with hg | ⟨rfl, rfl⟩
      · rcases (hnext name' g').mp hg' with hg' | ⟨rfl, rfl⟩
        · exact hshared name g name' g' hg hg'
        · exact hnew name g hg
      · rcases (hnext name' g').mp hg' with hg' | ⟨rfl, rfl⟩
        · rw [eq_comm, @eq_comm _ a.tunnel]
          exact hnew name' g' hg'
        · exact iff_of_true rfl rfl
    · intro name g hg
      rw [List.map_append, List.mem_append]
      rcases (hnext name g).mp hg with hg | ⟨-, rfl⟩
      · exact Or.inl (hfrom name g hg)
      · rcases hopen with hhas | ⟨-, hfd⟩
        · exact Or.inl (hfrom _ _ hhas)
        · exact Or.inr (by simp [hfd])
    · intro name b hnotin hb
      rw [List.map_append, List.mem_append, not_or] at hnotin
      refine hfirst name b hnotin.1 ?_
      rw [opener_cons_of_ne fun heq => hnotin.2 (by simp [heq])]
      exact hb

/-- **Tunnels.** The sessions share their tunnel descriptors by name, and each tunnel is opened
once, exactly when every session that is the first with its tunnel finds a value below 1 in its
local `fd`. -/
theorem sharedByName_iff (hzero : ∀ d, net.count d = 0) (hfresh : FreshTunnels as)
    (hrun : setUpAll net as = .ok net') :
    SharedByName net' ∧ OpenedOnce net as ↔ FirstsOpen as := by
  have hstart := SetUpFor.start hzero
  have hcount := hstart.count_tuntapCalls hfresh.tunnelled hrun
  simp only [List.map_nil, List.not_mem_nil, if_false] at hcount
  have hnone : ∀ name fd, ¬ net.HasTunnel name fd := fun name fd ⟨d, k, x, hk, _⟩ => by
    rw [hzero d] at hk
    cases hk
  constructor
  · rintro ⟨-, honce⟩ name a hopener
    have hone := honce name
    rw [hcount name, hopener, if_pos (opener_mem hopener), Option.elim_some] at hone
    by_contra hfd
    rw [if_neg hfd] at hone
    exact absurd hone (by decide)
  · intro hfirst
    refine ⟨hstart.shared (fun name fd _ _ h => absurd h (hnone name fd))
      (fun name fd h => absurd h (hnone name fd)) hfresh.tunnelled hfresh.fresh
      (fun name a _ => hfirst name a) hrun, fun name => ?_⟩
    rw [hcount name]
    cases hopener : opener as name with
    | none => rw [if_neg (opener_not_mem hopener), Option.elim_none]
    | some a =>
      rw [Option.elim_some, if_pos (hfirst name a hopener), if_pos (opener_mem hopener)]

/-! ## Runs whose calls succeed

The theorem above speaks of every set-up that comes to an end. Here is one that does: enough
elements and calls that succeed. -/

theorem exists_findFd_some {xs : List Xq} {n : Nat} (hxs : net.array dir = some xs)
    (hn : n ≤ xs.length) (peer : PeerCtx) (fd : Int) :
    ∃ fd', net.findFd some dir peer fd n = .ok fd' := by
  induction n with
  | zero => exact ⟨fd, rfl⟩
  | succ n ih =>
    obtain ⟨fd', hfd'⟩ := ih (by omega)
    exact ⟨_, bind_eq_ok.mpr ⟨fd', hfd', bind_eq_ok.mpr ⟨_, load_some hxs hn, rfl⟩⟩⟩

/-- The arrays have an element for every session so far and `more` for those to come. -/
def Net.Room (net : Net) (more : Dir → Nat) : Prop :=
  ∀ d, ∃ xs, net.array d = some xs ∧ net.count d + more d ≤ xs.length

theorem exists_session_own {more : Dir → Nat} (hroom : net.Room more) (hmore : 0 < more dir)
    (hcalls : a.calls.Succeed) (hdir : a.peer.dir? = some dir)
    (hif : a.peer.isSet .ifname = true) (hset : a.peer.isSet .tifname = true) :
    ∃ net', enumerateStep some net a = .ok net' ∧
      net'.Room fun d => if d = dir then more d - 1 else more d := by
  obtain ⟨xs, hxs, hlen⟩ := hroom dir
  obtain ⟨ys, hys, hother⟩ := hroom dir.other
  have hlt : net.count dir < xs.length := by omega
  obtain ⟨net₁, x, hnet₁, harray, hcount⟩ := exists_session_found hcalls
    (show some (net.count dir) = some (net.count dir) from rfl) hxs hlt
    (exists_findFd_some hxs (Nat.le_of_add_right_le hlen) a.peer)
    (exists_findFd_some hys (Nat.le_of_add_right_le hother) a.peer) hif hset
  refine ⟨net₁.countUp dir, by rw [enumerateStep_of_dir some net hdir, hnet₁]; rfl, fun d => ?_⟩
  by_cases hd : d = dir
  · subst hd
    refine ⟨xs.set (net.count d) x, by simp [Net.countUp, harray], ?_⟩
    simp only [Net.countUp, hcount, Function.update_self, if_true, List.length_set]
    omega
  · obtain ⟨zs, hzs, hrest⟩ := hroom d
    refine ⟨zs, by simp [Net.countUp, harray, Function.update_of_ne hd, hzs], ?_⟩
    simpa [Net.countUp, hcount, Function.update_of_ne hd, hd] using hrest

/-- With room for all sessions and calls that succeed, all of them are set up. -/
theorem exists_setUpAll (hroom : net.Room fun d => sessionsOf d as)
    (hdir : ∀ a ∈ as, ∃ dir, a.peer.dir? = some dir)
    (hif : ∀ a ∈ as, a.peer.isSet .ifname = true) (hset : ∀ a ∈ as, a.peer.isSet .tifname = true)
    (hcalls : ∀ a ∈ as, a.calls.Succeed) : ∃ net', setUpAll net as = .ok net' := by
  induction as generalizing net with
  | nil => exact ⟨net, rfl⟩
  | cons a as ih =>
    obtain ⟨dir, hd⟩ := hdir a (List.mem_cons_self ..)
    have hmore : ∀ d, sessionsOf d (a :: as) = sessionsOf d as + if d = dir then 1 else 0 := by
      intro d
      rw [sessionsOf, List.countP_cons, hd]
      by_cases hdd : d = dir
      · simp [sessionsOf, hdd]
      · simp [sessionsOf, hdd, Ne.symm hdd]
    obtain ⟨net₁, hnet₁, hroom₁⟩ := exists_session_own hroom (by rw [hmore, if_pos rfl]; omega)
      (hcalls a (List.mem_cons_self ..)) hd (hif a (List.mem_cons_self ..))
      (hset a (List.mem_cons_self ..))
    have hrest : net₁.Room fun d => sessionsOf d as := fun d => by
      obtain ⟨xs, hxs, hlen⟩ := hroom₁ d
      refine ⟨xs, hxs, ?_⟩
      simp only [hmore] at hlen
      split at hlen
      · exact hlen
      · rw [Nat.add_zero] at hlen
        exact hlen
    obtain ⟨net', hnet'⟩ := ih hrest (fun b hb => hdir b (List.mem_cons_of_mem _ hb))
      (fun b hb => hif b (List.mem_cons_of_mem _ hb))
      (fun b hb => hset b (List.mem_cons_of_mem _ hb))
      (fun b hb => hcalls b (List.mem_cons_of_mem _ hb))
    exact ⟨net', bind_eq_ok.mpr ⟨net₁, hnet₁, hnet'⟩⟩

end Tunnels

/-- Two egress peers and an ingress peer that shares the tunnel of the first; the stack holds `fd`
when each session starts. -/
def threePeers (fd : Int) : List Listed :=
  [⟨tunnelPeer dirOut "tap0", true, true, { goodCalls with fd := fd, tuntap := 4 }⟩,
    ⟨tunnelPeer dirOut "tap1", true, true, { goodCalls with fd := fd, tuntap := 5 }⟩,
    ⟨tunnelPeer dirIn "tap0", true, true, { goodCalls with fd := fd, tuntap := 6 }⟩]

theorem threePeers_all {p : Listed → Prop} {fd : Int}
    (h₀ : p ⟨tunnelPeer dirOut "tap0", true, true, { goodCalls with fd := fd, tuntap := 4 }⟩)
    (h₁ : p ⟨tunnelPeer dirOut "tap1", true, true, { goodCalls with fd := fd, tuntap := 5 }⟩)
    (h₂ : p ⟨tunnelPeer dirIn "tap0", true, true, { goodCalls with fd := fd, tuntap := 6 }⟩) :
    ∀ a ∈ threePeers fd, p a := by
  simp only [threePeers, List.forall_mem_cons]
  exact ⟨h₀, h₁, h₂, List.forall_mem_nil p⟩

theorem threePeers_fresh (fd : Int) : FreshTunnels (threePeers fd) where
  session := threePeers_all ⟨.egress, rfl⟩ ⟨.egress, rfl⟩ ⟨.ingress, rfl⟩
  isSet := threePeers_all rfl rfl rfl
  positive := threePeers_all (show (0 : Int) < 4 by decide) (show (0 : Int) < 5 by decide)
    (show (0 : Int) < 6 by decide)
  fresh := show ([4, 5, 6] : List Int).Nodup by decide

/-- The arrays for them. -/
def threeElements (fd : Int) : Net := startNet zeroMalloc (threePeers fd)

theorem exists_threePeers (fd : Int) :
    ∃ net', setUpAll (threeElements fd) (threePeers fd) = .ok net' := by
  have hsucceed : ∀ tuntap : Int, 0 < tuntap →
      ({ goodCalls with fd := fd, tuntap := tuntap } : SessionCalls).Succeed := fun tuntap hpos =>
    { goodCalls_succeed with tuntap := hpos }
  refine exists_setUpAll (fun d => ?_) (threePeers_fresh fd).session
    (threePeers_all rfl rfl rfl) (threePeers_fresh fd).isSet
    (threePeers_all (hsucceed 4 (by decide)) (hsucceed 5 (by decide)) (hsucceed 6 (by decide)))
  cases d with
  | egress => exact ⟨_, rfl, show 2 ≤ 3 by decide⟩
  | ingress => exact ⟨_, rfl, show 1 ≤ 3 by decide⟩

theorem sharedByName_three :
    ∃ net', setUpAll (threeElements 0) (threePeers 0) = .ok net' ∧
      SharedByName net' ∧ OpenedOnce (threeElements 0) (threePeers 0) := by
  obtain ⟨net', hrun⟩ := exists_threePeers 0
  refine ⟨net', hrun, (sharedByName_iff (fun _ => rfl) (threePeers_fresh 0) hrun).mpr ?_⟩
  intro name a hopener
  exact threePeers_all (p := fun a => a.calls.fd < 1) (by decide) (by decide) (by decide) a
    (List.mem_of_find?_eq_some hopener)

/-- With a 3 on the stack no tunnel is ever opened. -/
theorem sharedByName_fails :
    ¬ ∀ (net : Net) (as : List Listed) (net' : Net), (∀ d, net.count d = 0) → FreshTunnels as →
      setUpAll net as = .ok net' → SharedByName net' ∧ OpenedOnce net as := by
  intro hall
  obtain ⟨net', hrun⟩ := exists_threePeers 3
  have hfresh := threePeers_fresh 3
  have hzero : ∀ d, (threeElements 3).count d = 0 := fun _ => rfl
  have honce := (hall _ _ net' hzero hfresh hrun).2 (CStr.ofString "tap0")
  rw [(SetUpFor.start hzero).count_tuntapCalls hfresh.tunnelled hrun]
    at honce
  revert honce
  decide

end Lanes
