import Lanes.Config.Fields

/-!
# One key, one field

What the pairs of an entry leave in the fields of their peer. A key sets the fields of its own and,
by the copies of `Fields`, may write into the arrays behind them.

## The architecture

* **`applyPairs_text`**: the memory of the texts after a sequence of pairs is what their copies make
  of it, `copyAll (copiesOf pairs)`. So the results of `Fields` apply to the peer itself.
* **`applyPairs_numbers`**: the numbers are set by their own keys, apart from the direction, which
  `map-interface` sets as well as `type`.
* **`Setting.textAfter_comm_iff`, `Setting.set_comm_of_direction`**: when two pairs may change
  places, split into the texts and the rest.
* **`touchesOwn_iff`**: the keys of an entry set their own fields and no others, in any order of two
  of them, exactly when `FitsTogether` holds of them.
-/

namespace Lanes

/-! ## The copies of a sequence of pairs

A pair makes one copy or none: keys with a number, and keys that are not known, make none. -/

/-- The copy that a pair makes. -/
def copyOf (pair : CStr × CStr) : Option Copy :=
  (settingOf pair.1).bind fun s => s.field.map fun fn => ⟨fn.1, pair.2⟩

def copiesOf (pairs : List (CStr × CStr)) : List Copy := pairs.filterMap copyOf

section Copies

variable {env : Env} {s t : Setting} {f : Field} {n m : Nat} {value : CStr}

theorem Setting.field_known (h : s.field = some (f, n)) : f ∈ textFields ∧ n = f.count := by
  cases s <;> cases h <;> decide

/-- Every array is set by one key. -/
theorem Setting.field_inj (hs : s.field = some (f, n)) (ht : t.field = some (f, m)) : s = t := by
  cases s <;> cases hs <;> cases t <;> first | rfl | (cases ht)

/-- The text after a setting is that after its copy. -/
theorem Setting.textAfter_eq (s : Setting) (value : CStr) (text : Mem) :
    s.textAfter value text =
      copyAll (s.field.map fun fn => (⟨fn.1, value⟩ : Copy)).toList text := by
  unfold Setting.textAfter
  cases hs : s.field with
  | none => rfl
  | some fn =>
    obtain ⟨f, n⟩ := fn
    obtain ⟨-, rfl⟩ := Setting.field_known hs
    rfl

theorem applyKey_text {key : CStr} {peer peer' : PeerCtx}
    (h : applyKey env key value peer = some peer') :
    peer'.text = copyAll (copyOf (key, value)).toList peer.text := by
  rcases applyKey_some h with ⟨hs, rfl⟩ | ⟨s, hs, -, rfl⟩
  · simp [copyOf, hs, copyAll]
  · rw [copyOf, hs]
    exact Setting.textAfter_eq s value peer.text

theorem applyPairs_cons {pair : CStr × CStr} {pairs : List (CStr × CStr)} {peer : PeerCtx} :
    applyPairs env (pair :: pairs) peer =
      (applyKey env pair.1 pair.2 peer).bind (applyPairs env pairs) := rfl

/-- The text of a peer after its pairs. -/
theorem applyPairs_text {pairs : List (CStr × CStr)} {peer peer' : PeerCtx}
    (h : applyPairs env pairs peer = some peer') :
    peer'.text = copyAll (copiesOf pairs) peer.text := by
  induction pairs generalizing peer with
  | nil =>
    cases h
    rfl
  | cons pair pairs ih =>
    rw [applyPairs_cons] at h
    obtain ⟨mid, hmid, hrest⟩ := Option.bind_eq_some_iff.mp h
    rw [ih hrest, applyKey_text hmid, ← copyAll_append, copiesOf, copiesOf]
    cases hc : copyOf pair <;> simp [hc]

theorem copiesOf_known (pairs : List (CStr × CStr)) : Known (copiesOf pairs) := by
  intro c hc
  obtain ⟨pair, -, hpair⟩ := List.mem_filterMap.mp hc
  obtain ⟨s, -, hfield⟩ := Option.bind_eq_some_iff.mp hpair
  obtain ⟨fn, hfn, rfl⟩ := Option.map_eq_some_iff.mp hfield
  exact (Setting.field_known hfn).1

/-- The pairs of an entry that is accepted go through on any peer. -/
theorem applyPairs_isSome {pairs : List (CStr × CStr)}
    (h : ∀ p ∈ pairs, Accepted env p.1 p.2) (peer : PeerCtx) :
    ∃ peer', applyPairs env pairs peer = some peer' := by
  induction pairs generalizing peer with
  | nil => exact ⟨peer, rfl⟩
  | cons pair pairs ih =>
    obtain ⟨mid, hmid⟩ := Option.isSome_iff_exists.mp
      ((applyKey_isSome peer).mpr (h pair (List.mem_cons_self ..)))
    obtain ⟨peer', hrest⟩ := ih (fun p hp => h p (List.mem_cons_of_mem _ hp)) mid
    exact ⟨peer', by rw [applyPairs_cons, hmid, Option.bind_some, hrest]⟩

end Copies

/-! ## The other fields

For each number, that a key which is not its own leaves it alone. -/

/-- The fields that are no text, unless a pair is for them, and the byte between the name and the
interface name. -/
structure NumbersKept (pairs : List (CStr × CStr)) (peer peer' : PeerCtx) : Prop where
  id : peer'.id = peer.id
  version : peer'.text Field.version.off = peer.text Field.version.off
  ipVersion : (∀ p ∈ pairs, settingOf p.1 ≠ some .ipVersion) → peer'.ipVersion = peer.ipVersion
  direction : (∀ p ∈ pairs, settingOf p.1 ≠ some .type ∧ settingOf p.1 ≠ some .mapInterface) →
    peer'.direction = peer.direction
  threads : (∀ p ∈ pairs, settingOf p.1 ≠ some .threads) → peer'.threads = peer.threads
  peerip : (∀ p ∈ pairs, settingOf p.1 ≠ some .peerIp) → peer'.peerip = peer.peerip
  myip : (∀ p ∈ pairs, settingOf p.1 ≠ some .localIp) → peer'.myip = peer.myip

section Numbers

variable {env : Env} {s t : Setting} {v w : CStr} {peer peer' : PeerCtx}

theorem Setting.set_direction (ht : s ≠ .type) (hm : s ≠ .mapInterface) :
    (s.set env v peer).direction = peer.direction := by
  cases s <;> first | rfl | exact absurd rfl ht | exact absurd rfl hm

theorem applyKey_numbers {key : CStr} (h : applyKey env key v peer = some peer') :
    NumbersKept [(key, v)] peer peer' := by
  rcases applyKey_some h with ⟨-, rfl⟩ | ⟨s, hs, -, rfl⟩
  · exact ⟨rfl, rfl, fun _ => rfl, fun _ => rfl, fun _ => rfl, fun _ => rfl, fun _ => rfl⟩
  · have hne : ∀ u, (∀ p ∈ [(key, v)], settingOf p.1 ≠ some u) → s ≠ u := fun u hu he =>
      hu (key, v) (List.mem_singleton_self _) (by rw [hs, he])
    exact
      { id := rfl
        version := Setting.textAfter_of_lt s v peer.text (by decide)
        ipVersion := fun hu => if_neg (hne _ hu)
        direction := fun hu => Setting.set_direction
          (hne _ fun p hp => (hu p hp).1) (hne _ fun p hp => (hu p hp).2)
        threads := fun hu => if_neg (hne _ hu)
        peerip := fun hu => if_neg (hne _ hu)
        myip := fun hu => if_neg (hne _ hu) }

theorem NumbersKept.trans {pair : CStr × CStr} {pairs : List (CStr × CStr)} {mid : PeerCtx}
    (h : NumbersKept [pair] peer mid) (h' : NumbersKept pairs mid peer') :
    NumbersKept (pair :: pairs) peer peer' := by
  have hsplit : ∀ {P : CStr × CStr → Prop}, (∀ p ∈ pair :: pairs, P p) →
      (∀ p ∈ [pair], P p) ∧ ∀ p ∈ pairs, P p := fun hall =>
    ⟨fun p hp => hall p (by simp at hp; simp [hp]), fun p hp => hall p (List.mem_cons_of_mem _ hp)⟩
  exact
    { id := h'.id.trans h.id
      version := h'.version.trans h.version
      ipVersion := fun hu => (h'.ipVersion (hsplit hu).2).trans (h.ipVersion (hsplit hu).1)
      direction := fun hu => (h'.direction (hsplit hu).2).trans (h.direction (hsplit hu).1)
      threads := fun hu => (h'.threads (hsplit hu).2).trans (h.threads (hsplit hu).1)
      peerip := fun hu => (h'.peerip (hsplit hu).2).trans (h.peerip (hsplit hu).1)
      myip := fun hu => (h'.myip (hsplit hu).2).trans (h.myip (hsplit hu).1) }

theorem applyPairs_numbers {pairs : List (CStr × CStr)}
    (h : applyPairs env pairs peer = some peer') : NumbersKept pairs peer peer' := by
  induction pairs generalizing peer with
  | nil =>
    cases h
    exact ⟨rfl, rfl, fun _ => rfl, fun _ => rfl, fun _ => rfl, fun _ => rfl, fun _ => rfl⟩
  | cons pair pairs ih =>
    rw [applyPairs_cons] at h
    obtain ⟨mid, hmid, hrest⟩ := Option.bind_eq_some_iff.mp h
    exact (applyKey_numbers hmid).trans (ih hrest)

end Numbers

/-! ## Two pairs in either order

Two copies commute exactly when they agree where they overlap. Two branches commute when they do
not write the same field, and the direction is the one field that two branches write. -/

/-- The two pairs are for different keys, and not both for the direction: `map-interface` sets it
too. -/
def DifferentFields (a b : CStr × CStr) : Prop :=
  ∃ s t, settingOf a.1 = some s ∧ settingOf b.1 = some t ∧ s ≠ t ∧
    ¬ (s = .type ∧ t = .mapInterface) ∧ ¬ (s = .mapInterface ∧ t = .type)

/-- The copies store the same bytes where both store. -/
def Agree (a b : Copy) : Prop := ∀ x, a.Covers x → b.Covers x → a.byte x = b.byte x

/-- Copies of bytes that are apart agree. -/
theorem Agree.of_apart {a b : Copy} (h : a.field.off + a.field.count ≤ b.field.off ∨
    b.field.off + b.field.count ≤ a.field.off) : Agree a b := by
  rintro x ⟨hale, halt⟩ ⟨hble, hblt⟩
  exfalso
  omega

section Swap

variable {env : Env} {s t : Setting} {v w : CStr} {peer : PeerCtx}

theorem ite_swap {α : Type*} {p q : Prop} [Decidable p] [Decidable q] (h : ¬ (p ∧ q)) (x y z : α) :
    (if p then x else if q then y else z) = if q then y else if p then x else z := by
  by_cases hp : p
  · rw [if_pos hp, if_neg fun hq => h ⟨hp, hq⟩, if_pos hp]
  · rw [if_neg hp, if_neg hp]

/-- Settings of different keys commute if what they do to the direction and to the text does. -/
theorem Setting.set_comm_of_direction (hne : s ≠ t)
    (hdir : (s.set env v (t.set env w peer)).direction =
      (t.set env w (s.set env v peer)).direction)
    (htext : s.textAfter v (t.textAfter w peer.text) = t.textAfter w (s.textAfter v peer.text)) :
    s.set env v (t.set env w peer) = t.set env w (s.set env v peer) := by
  have hnot : ∀ u : Setting, ¬ (s = u ∧ t = u) := fun u h => hne (h.1.trans h.2.symm)
  have hmk : ∀ p q : PeerCtx, p.id = q.id → p.ipVersion = q.ipVersion →
      p.direction = q.direction → p.threads = q.threads → p.peerip = q.peerip →
      p.myip = q.myip → p.text = q.text → p = q := by
    rintro ⟨⟩ ⟨⟩ rfl rfl rfl rfl rfl rfl rfl
    rfl
  exact hmk _ _ rfl (ite_swap (hnot _) _ _ _) hdir (ite_swap (hnot _) _ _ _)
    (ite_swap (hnot _) _ _ _) (ite_swap (hnot _) _ _ _) htext

/-- `type` and `map-interface` are the two settings that write the direction. -/
theorem Setting.direction_comm (hne : s ≠ t)
    (h₁ : s = .type → t = .mapInterface → typeDirection v dirMap = dirMap)
    (h₂ : s = .mapInterface → t = .type → typeDirection w dirMap = dirMap) :
    (s.set env v (t.set env w peer)).direction = (t.set env w (s.set env v peer)).direction := by
  by_cases hs : s = .type ∨ s = .mapInterface
  · by_cases ht : t = .type ∨ t = .mapInterface
    · rcases hs with rfl | rfl
      · obtain rfl : t = .mapInterface := ht.resolve_left hne.symm
        exact h₁ rfl rfl
      · obtain rfl : t = .type := ht.resolve_right hne.symm
        exact (h₂ rfl rfl).symm
    · rw [not_or] at ht
      rw [Setting.set_direction ht.1 ht.2]
      rcases hs with rfl | rfl
      · show typeDirection v (t.set env w peer).direction = _
        rw [Setting.set_direction ht.1 ht.2]
        rfl
      · rfl
  · rw [not_or] at hs
    rw [Setting.set_direction hs.1 hs.2]
    by_cases ht : t = .type
    · subst ht
      show _ = typeDirection w (s.set env v peer).direction
      rw [Setting.set_direction hs.1 hs.2]
      rfl
    · by_cases ht' : t = .mapInterface
      · subst ht'
        rfl
      · rw [Setting.set_direction ht ht', Setting.set_direction ht ht',
          Setting.set_direction hs.1 hs.2]

/-- Apart from the text, settings of different fields commute. -/
theorem Setting.set_comm (hne : s ≠ t) (h₁ : ¬ (s = .type ∧ t = .mapInterface))
    (h₂ : ¬ (s = .mapInterface ∧ t = .type))
    (htext : s.textAfter v (t.textAfter w peer.text) = t.textAfter w (s.textAfter v peer.text)) :
    s.set env v (t.set env w peer) = t.set env w (s.set env v peer) :=
  Setting.set_comm_of_direction hne
    (Setting.direction_comm hne (fun hs ht => absurd ⟨hs, ht⟩ h₁)
      (fun hs ht => absurd ⟨hs, ht⟩ h₂)) htext

/-- Two copies commute if and only if they agree. -/
theorem copy_comm_iff (a b : Copy) (text : Mem) :
    a.apply (b.apply text) = b.apply (a.apply text) ↔ Agree a b := by
  constructor
  · intro h x ha hb
    have hx := congrFun h x
    rwa [Copy.apply_of_covers _ ha, Copy.apply_of_covers _ hb] at hx
  · intro h
    funext x
    by_cases ha : a.Covers x
    · by_cases hb : b.Covers x
      · rw [Copy.apply_of_covers _ ha, Copy.apply_of_covers _ hb, h x ha hb]
      · rw [Copy.apply_of_covers _ ha, Copy.apply_of_not_covers _ hb, Copy.apply_of_covers _ ha]
    · rw [Copy.apply_of_not_covers _ ha]
      by_cases hb : b.Covers x
      · rw [Copy.apply_of_covers _ hb, Copy.apply_of_covers _ hb]
      · rw [Copy.apply_of_not_covers _ hb, Copy.apply_of_not_covers _ hb,
          Copy.apply_of_not_covers _ ha]

/-- The texts commute if and only if the copies that the settings make agree. -/
theorem Setting.textAfter_comm_iff (text : Mem) :
    s.textAfter v (t.textAfter w text) = t.textAfter w (s.textAfter v text) ↔
      ∀ c ∈ s.field.map fun fn => (⟨fn.1, v⟩ : Copy),
        ∀ d ∈ t.field.map fun fn => (⟨fn.1, w⟩ : Copy), Agree c d := by
  simp only [Setting.textAfter_eq]
  generalize s.field.map (fun fn => (⟨fn.1, v⟩ : Copy)) = copyS
  generalize t.field.map (fun fn => (⟨fn.1, w⟩ : Copy)) = copyT
  cases copyS with
  | none => simp [copyAll]
  | some c =>
    cases copyT with
    | none => simp [copyAll]
    | some d => simpa [copyAll] using copy_comm_iff c d text

end Swap

/-! ## When a sequence of pairs touches its own fields only

The property is about the peer that comes back from the pairs; the condition is about the pairs
alone. Both directions go through the copies. -/

/-- Every array that a pair is for holds the last value for it, the other arrays and fields are as
before, and two of the pairs for different fields may be exchanged. -/
structure TouchesOwn (env : Env) (pairs : List (CStr × CStr)) : Prop where
  texts : ∀ peer peer', applyPairs env pairs peer = some peer' →
    ∀ f ∈ textFields, FieldRight (copiesOf pairs) peer.text peer'.text f
  numbers : ∀ peer peer', applyPairs env pairs peer = some peer' → NumbersKept pairs peer peer'
  swap : ∀ a ∈ pairs, ∀ b ∈ pairs, DifferentFields a b →
    ∀ peer, applyPairs env [a, b] peer = applyPairs env [b, a] peer

/-- Every array has room for the last value for it, which is empty if a longer copy runs over it
later, no copy runs into an array without a pair, and two copies store the same bytes where they
overlap. -/
structure FitsTogether (pairs : List (CStr × CStr)) : Prop where
  texts : ∀ f ∈ textFields, FieldFits (copiesOf pairs) f
  overlap : ∀ a ∈ copiesOf pairs, ∀ b ∈ copiesOf pairs, a.field ≠ b.field → Agree a b

section Touches

variable {env : Env} {a b : CStr × CStr} {pairs : List (CStr × CStr)} {s t : Setting}

theorem applyKey_of_setting (peer : PeerCtx) (hs : settingOf a.1 = some s)
    (hacc : Accepted env a.1 a.2) : applyKey env a.1 a.2 peer = some (s.set env a.2 peer) := by
  rw [applyKey_eq, hs, applySetting_of_not_refuses peer (hacc s hs)]

theorem applyPairs_two (peer : PeerCtx) (hs : settingOf a.1 = some s) (ht : settingOf b.1 = some t)
    (ha : Accepted env a.1 a.2) (hb : Accepted env b.1 b.2) :
    applyPairs env [a, b] peer = some (t.set env b.2 (s.set env a.2 peer)) := by
  rw [applyPairs_cons, applyKey_of_setting peer hs ha, Option.bind_some, applyPairs_cons,
    applyKey_of_setting _ ht hb, Option.bind_some, applyPairs_nil]

theorem mem_copiesOf {c : Copy} (h : c ∈ copiesOf pairs) :
    ∃ p ∈ pairs, ∃ s, settingOf p.1 = some s ∧ s.field = some (c.field, c.field.count) ∧
      c.value = p.2 := by
  obtain ⟨p, hp, hcopy⟩ := List.mem_filterMap.mp h
  obtain ⟨s, hs, hmap⟩ := Option.bind_eq_some_iff.mp hcopy
  obtain ⟨⟨f, n⟩, hf, rfl⟩ := Option.map_eq_some_iff.mp hmap
  obtain ⟨-, rfl⟩ := Setting.field_known hf
  exact ⟨p, hp, s, hs, hf, rfl⟩

theorem copiesOf_mem {f : Field} {n : Nat} (h : a ∈ pairs) (hs : settingOf a.1 = some s)
    (hf : s.field = some (f, n)) : (⟨f, a.2⟩ : Copy) ∈ copiesOf pairs :=
  List.mem_filterMap.mpr ⟨a, h, by rw [copyOf, hs, Option.bind_some, hf, Option.map_some]⟩

theorem Setting.set_text (s : Setting) {f : Field} {n : Nat} (hf : s.field = some (f, n))
    (v : CStr) (peer : PeerCtx) :
    (s.set env v peer).text = (⟨f, v⟩ : Copy).apply peer.text := by
  show s.textAfter v peer.text = _
  rw [Setting.textAfter_eq, hf]
  rfl

/-- Copies that agree can be exchanged, and so can the settings that make them. -/
theorem FitsTogether.swap (h : FitsTogether pairs) (hacc : ∀ p ∈ pairs, Accepted env p.1 p.2)
    (ha : a ∈ pairs) (hb : b ∈ pairs) (hne : DifferentFields a b) (peer : PeerCtx) :
    applyPairs env [a, b] peer = applyPairs env [b, a] peer := by
  obtain ⟨s, t, hs, ht, hst, h₁, h₂⟩ := hne
  rw [applyPairs_two peer hs ht (hacc a ha) (hacc b hb),
    applyPairs_two peer ht hs (hacc b hb) (hacc a ha)]
  refine congrArg some (Setting.set_comm hst h₁ h₂ ?_).symm
  refine (Setting.textAfter_comm_iff peer.text).mpr fun c hc d hd => ?_
  obtain ⟨⟨f, n⟩, hfs, rfl⟩ := Option.map_eq_some_iff.mp hc
  obtain ⟨⟨g, m⟩, hft, rfl⟩ := Option.map_eq_some_iff.mp hd
  have hfg : f ≠ g := by
    rintro rfl
    exact hst (Setting.field_inj hfs hft)
  exact h.overlap _ (copiesOf_mem ha hs hfs) _ (copiesOf_mem hb ht hft) hfg

/-- Pairs that can be exchanged make copies that agree. -/
theorem TouchesOwn.overlap (h : TouchesOwn env pairs) (hacc : ∀ p ∈ pairs, Accepted env p.1 p.2)
    {c d : Copy} (hc : c ∈ copiesOf pairs) (hd : d ∈ copiesOf pairs) (hne : c.field ≠ d.field) :
    Agree c d := by
  obtain ⟨p, hp, s, hs, hfs, hcv⟩ := mem_copiesOf hc
  obtain ⟨q, hq, t, ht, hft, hdv⟩ := mem_copiesOf hd
  have hdiff : DifferentFields p q := by
    refine ⟨s, t, hs, ht, ?_, ?_, ?_⟩
    · rintro rfl
      rw [hfs] at hft
      exact hne (congrArg Prod.fst (Option.some.inj hft))
    · rintro ⟨rfl, -⟩
      cases hfs
    · rintro ⟨-, rfl⟩
      cases hft
  let peer : PeerCtx := ⟨0, 0, 0, 0, 0, 0, fun _ => 1⟩
  have hswap := h.swap p hp q hq hdiff peer
  rw [applyPairs_two peer hs ht (hacc p hp) (hacc q hq),
    applyPairs_two peer ht hs (hacc q hq) (hacc p hp)] at hswap
  have htext := congrArg PeerCtx.text (Option.some.inj hswap)
  rw [Setting.set_text t hft, Setting.set_text s hfs, Setting.set_text s hfs,
    Setting.set_text t hft, ← hcv, ← hdv] at htext
  exact (copy_comm_iff c d peer.text).mp htext.symm

end Touches

/-- **One key, one field.** The pairs of an accepted entry touch their own fields only exactly if
they fit together. -/
theorem touchesOwn_iff {env : Env} {pairs : List (CStr × CStr)}
    (hacc : ∀ p ∈ pairs, Accepted env p.1 p.2) : TouchesOwn env pairs ↔ FitsTogether pairs := by
  constructor
  · intro h
    refine ⟨?_, fun c hc d hd hne => h.overlap hacc hc hd hne⟩
    -- on a peer without a NUL in its arrays
    obtain ⟨peer', hpeer'⟩ := applyPairs_isSome hacc ⟨0, 0, 0, 0, 0, 0, fun _ => 1⟩
    refine FieldRight.fits (copiesOf_known pairs) fun f hf => ?_
    have hright := h.texts _ peer' hpeer' f hf
    rwa [applyPairs_text hpeer'] at hright
  · intro h
    exact
      { texts := fun peer peer' happly f hf => by
          rw [applyPairs_text happly]
          exact FieldFits.right hf (copiesOf_known pairs) h.texts peer.text
        numbers := fun _ _ happly => applyPairs_numbers happly
        swap := fun a ha b hb hne peer => h.swap hacc ha hb hne peer }

theorem touchesOwn_cipherAndKey :
    TouchesOwn ⟨fun _ => none⟩ [("threads", "2"), ("cipher", "aes256"), ("key", "secretpass")] := by
  refine (touchesOwn_iff ?_).mpr ⟨by decide, ?_⟩
  · intro p hp s hs
    simp only [List.mem_cons, List.not_mem_nil, or_false] at hp
    rcases hp with rfl | rfl | rfl <;> cases hs <;> exact id
  · have hcopies : copiesOf [("threads", "2"), ("cipher", "aes256"), ("key", "secretpass")] =
        [⟨.cipher, "aes256"⟩, ⟨.key, "secretpass"⟩] := rfl
    have hapart : ∀ a ∈ [(⟨.cipher, "aes256"⟩ : Copy), ⟨.key, "secretpass"⟩],
        ∀ b ∈ [(⟨.cipher, "aes256"⟩ : Copy), ⟨.key, "secretpass"⟩], a.field ≠ b.field →
          a.field.off + a.field.count ≤ b.field.off ∨
            b.field.off + b.field.count ≤ a.field.off := by
      decide
    rw [hcopies]
    exact fun a ha b hb hne => Agree.of_apart (hapart a ha b hb hne)

/-- `tunnel` before `interface` leaves the tunnel without a name. -/
theorem touchesOwn_fails :
    ¬ ∀ (env : Env) (pairs : List (CStr × CStr)), (∀ p ∈ pairs, Accepted env p.1 p.2) →
      TouchesOwn env pairs := by
  intro hall
  have hacc : ∀ p ∈ [(("tunnel", "tap0") : CStr × CStr), ("interface", "eth1")],
      Accepted ⟨fun _ => none⟩ p.1 p.2 := by decide
  obtain ⟨peer', hpeer'⟩ := applyPairs_isSome hacc ⟨0, 0, 0, 0, 0, 0, fun _ => 0⟩
  have h : (peer'.text.str 273 16).val = ("tap0" : CStr).val.take 15 ∧ _ :=
    (hall _ _ hacc).texts _ peer' hpeer' .tifname (by decide)
  have htext : peer'.text = copyAll [⟨.tifname, "tap0"⟩, ⟨.ifname, "eth1"⟩] fun _ => 0 :=
    applyPairs_text hpeer'
  rw [htext] at h
  exact absurd h.1 (by decide)

end Lanes
