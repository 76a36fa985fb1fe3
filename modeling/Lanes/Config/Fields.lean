import Mathlib.Tactic.ByContra
import Lanes.Config.Peer

/-!
# Which bytes of a peer a sequence of keys writes

Every key with a text copies it with a fixed count: 255 bytes into the name and into the arrays of
256 and of 16 bytes alike, 16000 into the key. The copy pads with NULs, so that the three interface
names run 239 bytes over the arrays behind them. What an array holds in the end is decided by the
last copy into it and the last copy that runs into it from the front.

* **`copyAll_of_last`**: a byte holds what the last copy over it put there. Everything below is this
  lemma, applied to the bytes of one array.
* **`copyAll_runsInto`**: an array that is run over behind its last copy starts with a byte of the
  copy that ran into it, which is a NUL if that copy fits its own array.
* **`FieldFits.right`, `FieldRight.fits`**: a sequence of copies leaves every array as the last
  value for it says exactly when these values fit, those that are run over are empty, and no array
  without a value is run into.
-/

namespace Lanes

/-! ## Copies

The arrays by their offset and size, the constant of the `strncpy` for each, and the sequence of
copies as one function on the memory of the structure. -/

/-- The character arrays in the order of their declaration. -/
def textFields : List Field :=
  [.name, .ifname, .tifname, .ifmap, .peerIp, .nextHop, .cipher, .socketPath, .pipePath, .key]

namespace Field

/-- The count of the `strncpy` into the array. -/
def count (f : Field) : Nat := if f = .key then 16000 else 255

/-- A value shorter than this is stored in its array with a NUL behind it. -/
def room (f : Field) : Nat := min f.count f.size

/-- A copy into `g` covers the start of `f`. -/
def RunsInto (g f : Field) : Prop := g.off < f.off ∧ f.off < g.off + g.count

instance (g f : Field) : Decidable (g.RunsInto f) := inferInstanceAs (Decidable (_ ∧ _))

theorem RunsInto.le {g f : Field} (h : g.RunsInto f) : g.off ≤ f.off := Nat.le_of_lt h.1

/-- Only the interface names run over, and not into themselves. -/
theorem RunsInto.spec {g f : Field} (hg : g ∈ textFields) (hf : f ∈ textFields)
    (h : g.RunsInto f) : g.room = 16 ∧ g.off + 16 ≤ f.off := by
  have table : ∀ g ∈ textFields, ∀ f ∈ textFields, g.RunsInto f →
      g.room = 16 ∧ g.off + 16 ≤ f.off := by decide
  exact table g hg f hf h

/-- What runs over the first array behind it runs over all that this one runs over. -/
theorem RunsInto.trans {h g f : Field} (hh : h ∈ textFields) (hg : g ∈ textFields)
    (hf : f ∈ textFields) (hhg : h.RunsInto g) (hgf : g.RunsInto f) : h.RunsInto f := by
  have table : ∀ h ∈ textFields, ∀ g ∈ textFields, ∀ f ∈ textFields, h.RunsInto g →
      g.RunsInto f → h.RunsInto f := by decide
  exact table h hh g hg f hf hhg hgf

/-- A copy that does not run into an array is clear of it. -/
theorem apart {g f : Field} (hg : g ∈ textFields) (hf : f ∈ textFields) (hne : g ≠ f)
    (h : ¬ g.RunsInto f) : g.off + g.count ≤ f.off ∨ f.off + f.size ≤ g.off := by
  have table : ∀ g ∈ textFields, ∀ f ∈ textFields, g ≠ f → ¬ g.RunsInto f →
      g.off + g.count ≤ f.off ∨ f.off + f.size ≤ g.off := by decide
  exact table g hg f hf hne h

theorem room_le {f : Field} (hf : f ∈ textFields) : f.room ≤ f.count ∧ f.room ≤ f.size ∧
    0 < f.room := by
  revert f
  decide

theorem two_le_size {f : Field} (hf : f ∈ textFields) : 2 ≤ f.size := by
  revert f
  decide

end Field

/-- A `strncpy` of a value into an array, with the count of the array. -/
structure Copy where
  field : Field
  value : CStr

namespace Copy

def apply (c : Copy) (text : Mem) : Mem := text.strncpy c.field.off c.value c.field.count

def Covers (c : Copy) (x : Nat) : Prop := c.field.off ≤ x ∧ x < c.field.off + c.field.count

instance (c : Copy) (x : Nat) : Decidable (c.Covers x) := inferInstanceAs (Decidable (_ ∧ _))

/-- The byte that the copy stores at `x`. -/
def byte (c : Copy) (x : Nat) : UInt8 := c.value.val.getD (x - c.field.off) 0

theorem apply_of_covers {c : Copy} {x : Nat} (text : Mem) (h : c.Covers x) :
    c.apply text x = c.byte x := by
  obtain ⟨hle, hlt⟩ := h
  obtain ⟨j, rfl⟩ := Nat.exists_eq_add_of_le hle
  rw [apply, Mem.strncpy_apply_add (by omega), byte, Nat.add_sub_cancel_left]

theorem apply_of_not_covers {c : Copy} {x : Nat} (text : Mem) (h : ¬ c.Covers x) :
    c.apply text x = text x := by
  rcases Nat.lt_or_ge x c.field.off with hlt | hge
  · exact Mem.strncpy_apply_of_lt hlt
  · exact Mem.strncpy_apply_of_ge (by
      by_contra hend
      exact h ⟨hge, by omega⟩)

end Copy

/-- The copies one after the other. -/
def copyAll (cs : List Copy) (text : Mem) : Mem := cs.foldl (fun text c => c.apply text) text

section Bytes

variable {cs before after : List Copy} {c : Copy} {x : Nat}

theorem copyAll_append (text : Mem) :
    copyAll (before ++ after) text = copyAll after (copyAll before text) := List.foldl_append

/-- A byte that no copy covers stays. -/
theorem copyAll_of_not_covers (text : Mem) (h : ∀ c ∈ cs, ¬ c.Covers x) :
    copyAll cs text x = text x := by
  induction cs generalizing text with
  | nil => rfl
  | cons c cs ih =>
    rw [copyAll, List.foldl_cons]
    exact (ih (c.apply text) fun c' hc' => h c' (List.mem_cons_of_mem _ hc')).trans
      (Copy.apply_of_not_covers text (h c (List.mem_cons_self ..)))

/-- The last copy that covers a byte decides it. -/
theorem copyAll_of_last (text : Mem) (hc : c.Covers x) (hafter : ∀ c' ∈ after, ¬ c'.Covers x) :
    copyAll (before ++ c :: after) text x = c.byte x := by
  rw [copyAll_append, copyAll, List.foldl_cons]
  exact (copyAll_of_not_covers _ hafter).trans (Copy.apply_of_covers _ hc)

end Bytes

/-! ## The last copy into an array

`lastCopy` also gives the copies behind it, which are the ones that may run into the array. -/

/-- The last value copied into `f`, and the copies behind it. -/
def lastCopy (f : Field) : List Copy → Option (CStr × List Copy)
  | [] => none
  | c :: cs =>
    match lastCopy f cs with
    | some found => some found
    | none => if c.field = f then some (c.value, cs) else none

theorem lastCopy_none {f : Field} {cs : List Copy} (h : lastCopy f cs = none) :
    ∀ c ∈ cs, c.field ≠ f := by
  induction cs with
  | nil => simp
  | cons c cs ih =>
    rw [lastCopy] at h
    cases hrest : lastCopy f cs with
    | some found =>
      rw [hrest] at h
      cases h
    | none =>
      rw [hrest] at h
      intro c' hc'
      rcases List.mem_cons.mp hc' with rfl | hc'
      · intro he
        simp [he] at h
      · exact ih hrest c' hc'

theorem lastCopy_some {f : Field} {cs later : List Copy} {v : CStr}
    (h : lastCopy f cs = some (v, later)) :
    (∃ before, cs = before ++ ⟨f, v⟩ :: later) ∧ ∀ c ∈ later, c.field ≠ f := by
  induction cs with
  | nil => cases h
  | cons c cs ih =>
    rw [lastCopy] at h
    cases hrest : lastCopy f cs with
    | some found =>
      rw [hrest] at h
      cases h
      obtain ⟨⟨before, rfl⟩, hlater⟩ := ih hrest
      exact ⟨⟨c :: before, rfl⟩, hlater⟩
    | none =>
      rw [hrest] at h
      simp only at h
      split at h
      · rename_i he
        cases h
        subst he
        exact ⟨⟨[], rfl⟩, lastCopy_none hrest⟩
      · cases h

/-- A copy with no copy into the same array behind it is the last one. -/
theorem lastCopy_of_last {f : Field} {v : CStr} {before after : List Copy}
    (hafter : ∀ c ∈ after, c.field ≠ f) :
    lastCopy f (before ++ ⟨f, v⟩ :: after) = some (v, after) := by
  have hnone : lastCopy f after = none := by
    cases h : lastCopy f after with
    | none => rfl
    | some found =>
      obtain ⟨u, rest⟩ := found
      obtain ⟨⟨before', rfl⟩, -⟩ := lastCopy_some h
      exact absurd rfl (hafter ⟨f, u⟩ (by simp))
  induction before with
  | nil => simp [lastCopy, hnone]
  | cons c before ih => rw [List.cons_append, lastCopy, ih]

/-- The last of the copies that run into `f`. -/
theorem exists_last_runsInto {f : Field} {cs : List Copy} (h : ∃ c ∈ cs, c.field.RunsInto f) :
    ∃ before c after, cs = before ++ c :: after ∧ c.field.RunsInto f ∧
      ∀ c' ∈ after, ¬ c'.field.RunsInto f := by
  induction cs with
  | nil =>
    obtain ⟨c, hc, -⟩ := h
    cases hc
  | cons c cs ih =>
    by_cases hrest : ∃ c ∈ cs, c.field.RunsInto f
    · obtain ⟨before, c', after, rfl, hruns, hafter⟩ := ih hrest
      exact ⟨c :: before, c', after, rfl, hruns, hafter⟩
    · obtain ⟨c', hc', hruns⟩ := h
      rcases List.mem_cons.mp hc' with rfl | hc'
      · exact ⟨[], c', cs, rfl, hruns, fun c'' hc'' hr => hrest ⟨c'', hc'', hr⟩⟩
      · exact absurd ⟨c', hc', hruns⟩ hrest

/-! ## What an array holds in the end

By the three things that can have happened to it: nothing, a last copy that nothing ran into, or a
copy that ran into it afterwards. -/

section Text

variable {f : Field} {cs later : List Copy} {v : CStr} {text : Mem}

/-- Every copy is into one of the arrays. -/
def Known (cs : List Copy) : Prop := ∀ c ∈ cs, c.field ∈ textFields

/-- Copies into other arrays that do not run into `f` leave it alone. -/
theorem copyAll_field (hf : f ∈ textFields) (hcs : Known cs) (hother : ∀ c ∈ cs, c.field ≠ f)
    (hruns : ∀ c ∈ cs, ¬ c.field.RunsInto f) {k : Nat} (hk : k < f.size) :
    copyAll cs text (f.off + k) = text (f.off + k) := by
  refine copyAll_of_not_covers text fun c hc hcover => ?_
  obtain ⟨hle, hlt⟩ := hcover
  rcases Field.apart (hcs c hc) hf (hother c hc) (hruns c hc) with h | h <;> omega

/-- An array whose last copy is not run over holds the bytes of that copy. -/
theorem copyAll_last (hf : f ∈ textFields) (hcs : Known cs)
    (hlast : lastCopy f cs = some (v, later)) (hruns : ∀ c ∈ later, ¬ c.field.RunsInto f) {k : Nat}
    (hk : k < f.room) : copyAll cs text (f.off + k) = v.val.getD k 0 := by
  obtain ⟨⟨before, rfl⟩, hlater⟩ := lastCopy_some hlast
  obtain ⟨hcount, hsize, -⟩ := Field.room_le hf
  have hcover : (⟨f, v⟩ : Copy).Covers (f.off + k) :=
    ⟨Nat.le_add_right _ _, show f.off + k < f.off + f.count by omega⟩
  rw [copyAll_append, copyAll, List.foldl_cons]
  have hkept : copyAll later ((⟨f, v⟩ : Copy).apply (copyAll before text)) (f.off + k) =
      (⟨f, v⟩ : Copy).apply (copyAll before text) (f.off + k) :=
    copyAll_field hf (fun c hc => hcs c (by simp [hc])) hlater hruns (show k < f.size by omega)
  rw [copyAll] at hkept
  rw [hkept, Copy.apply_of_covers _ hcover, Copy.byte, Nat.add_sub_cancel_left]

/-- An array that is run over after its last copy starts with a byte of the copy that runs over it,
which is the last one into its own array and is not run over itself. -/
theorem copyAll_runsInto (hf : f ∈ textFields) {before : List Copy}
    (hcs : Known (before ++ later)) (hlater : ∀ c ∈ later, c.field ≠ f)
    (hruns : ∃ c ∈ later, c.field.RunsInto f) :
    ∃ g ∈ textFields, g.RunsInto f ∧ ∃ u rest,
      lastCopy g (before ++ later) = some (u, rest) ∧ (∀ c ∈ rest, ¬ c.field.RunsInto g) ∧
        copyAll (before ++ later) text f.off = u.val.getD (f.off - g.off) 0 := by
  obtain ⟨front, ⟨g, u⟩, after, rfl, hc, hafter⟩ := exists_last_runsInto hruns
  have hg : g ∈ textFields := hcs ⟨g, u⟩ (by simp)
  have hknown : ∀ c ∈ after, c.field ∈ textFields := fun c hc => hcs c (by simp [hc])
  refine ⟨g, hg, hc, u, after, ?_, ?_, ?_⟩
  · rw [← List.append_assoc]
    exact lastCopy_of_last fun c' hc' he => hafter c' hc' (he ▸ hc)
  · exact fun c' hc' hr => hafter c' hc' (hr.trans (hknown c' hc') hg hf hc)
  · rw [← List.append_assoc]
    refine copyAll_of_last text ⟨hc.le, hc.2⟩ fun c' hc' hcover => ?_
    obtain ⟨hle, hlt⟩ := hcover
    have hne : c'.field ≠ f := hlater c' (by simp [hc'])
    have hpos := (Field.room_le hf).2
    rcases Field.apart (hknown c' hc') hf hne (hafter c' hc') with h | h <;> omega

/-- Behind its room an array is never written. -/
theorem copyAll_tail (hf : f ∈ textFields) (hcs : Known cs) {k : Nat} (hk : f.room ≤ k)
    (hk' : k < f.size) : copyAll cs text (f.off + k) = text (f.off + k) := by
  have table : ∀ g ∈ textFields, ∀ f ∈ textFields, f.room < f.size →
      g.off + g.count ≤ f.off + f.room ∨ f.off + f.size ≤ g.off := by decide
  refine copyAll_of_not_covers text fun c hc hcover => ?_
  obtain ⟨hle, hlt⟩ := hcover
  rcases table c.field (hcs c hc) f hf (by omega) with h | h <;> omega

/-- A short value is there to its end. -/
theorem copyAll_str (hf : f ∈ textFields) (hcs : Known cs)
    (hlast : lastCopy f cs = some (v, later)) (hruns : ∀ c ∈ later, ¬ c.field.RunsInto f)
    (hshort : v.length < f.room) :
    (copyAll cs text).str f.off f.size = v ∧ (copyAll cs text).Terminated f.off f.size := by
  have hsize := (Field.room_le hf).2.1
  have hbytes : ∀ k ≤ v.length, copyAll cs text (f.off + k) = v.val.getD k 0 := fun k hk =>
    copyAll_last hf hcs hlast hruns (by omega)
  refine ⟨Mem.str_of_bytes (by omega) hbytes, Mem.terminated_iff.mpr ⟨v.length, by omega, ?_⟩⟩
  rw [hbytes _ (Nat.le_refl _)]
  exact List.getD_eq_default _ _ (Nat.le_refl _)

/-- A value that is too long leaves no NUL in an array that held none. -/
theorem copyAll_not_terminated (hf : f ∈ textFields) (hcs : Known cs)
    (hlast : lastCopy f cs = some (v, later)) (hruns : ∀ c ∈ later, ¬ c.field.RunsInto f)
    (hlong : f.room ≤ v.length) (htext : ∀ x, text x ≠ 0) :
    ¬ (copyAll cs text).Terminated f.off f.size := by
  rw [Mem.terminated_iff]
  rintro ⟨k, hk, hzero⟩
  rcases Nat.lt_or_ge k f.room with hlt | hge
  · have hkv : k < v.val.length := show k < v.length by omega
    rw [copyAll_last hf hcs hlast hruns hlt, List.getD_eq_getElem _ _ hkv] at hzero
    have hmem := List.getElem_mem hkv
    rw [hzero] at hmem
    exact v.property hmem
  · rw [copyAll_tail hf hcs hge hk] at hzero
    exact htext _ hzero

/-- An array that is run over after its last copy holds the empty string if the arrays in front of
it hold values that fit. -/
theorem copyAll_runsInto_zero (hf : f ∈ textFields) {before : List Copy}
    (hcs : Known (before ++ later)) (hlater : ∀ c ∈ later, c.field ≠ f)
    (hruns : ∃ c ∈ later, c.field.RunsInto f)
    (hshort : ∀ g ∈ textFields, g.off < f.off → ∀ u rest,
      lastCopy g (before ++ later) = some (u, rest) → (∀ c ∈ rest, ¬ c.field.RunsInto g) →
        u.length < g.room) :
    copyAll (before ++ later) text f.off = 0 := by
  obtain ⟨g, hg, hgf, u, rest, hlast, hrest, hbyte⟩ :=
    copyAll_runsInto hf hcs hlater hruns
  obtain ⟨hroom, hoff⟩ := hgf.spec hg hf
  have hu := hshort g hg hgf.1 u rest hlast hrest
  rw [hbyte]
  refine List.getD_eq_default _ _ ?_
  show u.length ≤ f.off - g.off
  omega

/-- The same, of the last copy into the array. -/
theorem copyAll_overrun_zero (hf : f ∈ textFields) (hcs : Known cs)
    (hlast : lastCopy f cs = some (v, later)) (hruns : ∃ c ∈ later, c.field.RunsInto f)
    (hshort : ∀ g ∈ textFields, g.off < f.off → ∀ u rest, lastCopy g cs = some (u, rest) →
      (∀ c ∈ rest, ¬ c.field.RunsInto g) → u.length < g.room) : copyAll cs text f.off = 0 := by
  obtain ⟨⟨before, hsplit⟩, hother⟩ := lastCopy_some hlast
  have hsplit' : cs = (before ++ [⟨f, v⟩]) ++ later := by simpa using hsplit
  rw [hsplit'] at hcs hshort ⊢
  exact copyAll_runsInto_zero hf hcs hother hruns hshort

end Text

/-! ## When every array holds its own value

An array without a copy has to hold what it held before. -/

/-- The array holds in `text'` the last value that `cs` has for it, cut so that its NUL fits, and
without one what it held in `text`. -/
def FieldRight (cs : List Copy) (text text' : Mem) (f : Field) : Prop :=
  match lastCopy f cs with
  | some (v, _) =>
    (text'.str f.off f.size).val = v.val.take (f.size - 1) ∧ text'.Terminated f.off f.size
  | none => ∀ k < f.size, text' (f.off + k) = text (f.off + k)

/-- The last value fits and, if a later copy runs into the array, is empty; and nothing runs into an
array without a copy. -/
def FieldFits (cs : List Copy) (f : Field) : Prop :=
  match lastCopy f cs with
  | some (v, later) =>
    v.length < f.room ∧ ((∃ c ∈ later, c.field.RunsInto f) → v.length = 0)
  | none => ∀ c ∈ cs, ¬ c.field.RunsInto f

instance (cs : List Copy) (f : Field) : Decidable (FieldFits cs f) :=
  match h : lastCopy f cs with
  | some (v, later) => decidable_of_iff
      (v.length < f.room ∧ ((∃ c ∈ later, c.field.RunsInto f) → v.length = 0))
      (by rw [FieldFits, h])
  | none => decidable_of_iff (∀ c ∈ cs, ¬ c.field.RunsInto f) (by rw [FieldFits, h])

section Right

variable {cs later : List Copy} {f : Field} {v : CStr}

theorem FieldFits.length_lt (h : FieldFits cs f) (hlast : lastCopy f cs = some (v, later)) :
    v.length < f.room := by
  rw [FieldFits, hlast] at h
  exact h.1

theorem FieldFits.right (hf : f ∈ textFields) (hcs : Known cs)
    (hfits : ∀ g ∈ textFields, FieldFits cs g) (text : Mem) :
    FieldRight cs text (copyAll cs text) f := by
  have h := hfits f hf
  rw [FieldFits] at h
  rw [FieldRight]
  cases hlast : lastCopy f cs with
  | none =>
    rw [hlast] at h
    exact fun k hk => copyAll_field hf hcs (lastCopy_none hlast) h hk
  | some found =>
    obtain ⟨v, later⟩ := found
    rw [hlast] at h
    obtain ⟨hlen, hempty⟩ := h
    have hsize := (Field.room_le hf).2
    by_cases hruns : ∃ c ∈ later, c.field.RunsInto f
    · -- run over, and empty before already
      have hzero : copyAll cs text f.off = 0 := copyAll_overrun_zero hf hcs hlast hruns
        fun g hg _ _ _ hu _ => (hfits g hg).length_lt hu
      have hv : v.val = [] := List.eq_nil_of_length_eq_zero (hempty hruns)
      refine ⟨?_, Mem.terminated_iff.mpr ⟨0, by omega, hzero⟩⟩
      rw [(Mem.str_eq_nil_iff (by omega)).mpr hzero, hv, List.take_nil]
    · have hclear : ∀ c ∈ later, ¬ c.field.RunsInto f := fun c hc hr => hruns ⟨c, hc, hr⟩
      obtain ⟨hstr, hterm⟩ : (copyAll cs text).str f.off f.size = v ∧
          (copyAll cs text).Terminated f.off f.size := copyAll_str hf hcs hlast hclear hlen
      refine ⟨?_, hterm⟩
      rw [hstr]
      refine (List.take_of_length_le ?_).symm
      show v.length ≤ f.size - 1
      omega

/-- Run over memory without a NUL, the arrays show whether the values fit. -/
theorem FieldRight.fits (hcs : Known cs)
    (hright : ∀ f ∈ textFields, FieldRight cs (fun _ => 1) (copyAll cs fun _ => 1) f) :
    ∀ f ∈ textFields, FieldFits cs f := by
  -- an array that is run over depends on the arrays in front of it
  have hall : ∀ n, ∀ f ∈ textFields, f.off < n → FieldFits cs f := by
    intro n
    induction n with
    | zero =>
      intro f _ hn
      omega
    | succ n ih =>
      intro f hf hn
      have h := hright f hf
      rw [FieldRight] at h
      rw [FieldFits]
      have hsize := (Field.room_le hf).2
      have hroom := Field.room_le hf
      have hshort : ∀ g ∈ textFields, g.off < f.off → ∀ u rest, lastCopy g cs = some (u, rest) →
          (∀ c ∈ rest, ¬ c.field.RunsInto g) → u.length < g.room := fun g hg hlt u rest hu _ =>
        (ih g hg (by omega)).length_lt hu
      cases hlast : lastCopy f cs with
      | none =>
        rw [hlast] at h
        intro c hc hr
        have hzero : copyAll ([] ++ cs) (fun _ => 1) f.off = 0 :=
          copyAll_runsInto_zero hf hcs (lastCopy_none hlast) ⟨c, hc, hr⟩ hshort
        have hkept := h 0 (by omega)
        rw [Nat.add_zero] at hkept
        rw [List.nil_append, hkept] at hzero
        exact absurd hzero (by decide)
      | some found =>
        obtain ⟨v, later⟩ := found
        rw [hlast] at h
        obtain ⟨hstr, hterm⟩ := h
        by_cases hruns : ∃ c ∈ later, c.field.RunsInto f
        · have hzero : copyAll cs (fun _ => 1) f.off = 0 :=
            copyAll_overrun_zero hf hcs hlast hruns hshort
          rw [(Mem.str_eq_nil_iff (by omega)).mpr hzero] at hstr
          have hlen : v.length = 0 := by
            have := congrArg List.length hstr
            rw [List.length_take, List.length_nil] at this
            have hpos := Field.two_le_size hf
            show v.val.length = 0
            omega
          exact ⟨by omega, fun _ => hlen⟩
        · have hclear : ∀ c ∈ later, ¬ c.field.RunsInto f := fun c hc hr => hruns ⟨c, hc, hr⟩
          refine ⟨?_, fun hr => absurd hr hruns⟩
          by_contra hlong
          exact copyAll_not_terminated hf hcs hlast hclear (by omega) (fun _ => by decide) hterm
  exact fun f hf => hall (f.off + 1) f hf (Nat.lt_succ_self _)

end Right

end Lanes
