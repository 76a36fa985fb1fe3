import Mathlib.Data.List.Basic

/-!
# Formats

The format strings of `<stdio.h>`: text with conversion specifications, each a `%`, some modifiers
and a character that says how the next argument is printed. What a conversion prints for an argument
is a parameter; `none` is what the standard leaves undefined, such as a specification that is not
complete or has no argument left. The store of `%n` through its argument is left out.

A format is first cut into pieces and then printed piece by piece, each specification taking its
arguments off the front of the list. What a text does as a format without arguments then follows
from its pieces alone, whatever the conversions are: `format_eq_self_iff`.
-/

namespace Format

/-- `%`. -/
def percent : UInt8 := 37

/-- Flags, widths, precisions and lengths are spelled with these bytes. -/
def modifiers : List UInt8 := "-+ #0123456789.*hljztL".toList.map fun c => c.toNat.toUInt8

/-- The bytes that end a specification. -/
def conversions : List UInt8 := "diouxXfFeEgGaAcspn%".toList.map fun c => c.toNat.toUInt8

inductive Piece where
  | byte (b : UInt8)
  | spec (mods : List UInt8) (conv : UInt8)
  deriving DecidableEq

/-- The pieces of a format; inside a specification the modifiers read so far are kept. -/
def pieces : Option (List UInt8) → List UInt8 → Option (List Piece)
  | none, [] => some []
  | some _, [] => none
  | none, b :: bs =>
    if b = percent then pieces (some []) bs else (pieces none bs).map (.byte b :: ·)
  | some mods, b :: bs =>
    if b ∈ conversions then (pieces none bs).map (.spec mods b :: ·)
    else if b ∈ modifiers then pieces (some (mods ++ [b])) bs
    else none

/-- What the conversions make of arguments of type `α`. -/
structure Conversions (α : Type*) where
  /-- The argument of a `*`. -/
  star : α → Option Int
  /-- The text of an argument under a specification whose `*` have these values. -/
  text : List UInt8 → List Int → UInt8 → α → Option (List UInt8)

section Print

variable {α : Type*} (C : Conversions α)

/-- The arguments of `n` stars, and the arguments behind them. -/
def stars : Nat → List α → Option (List Int × List α)
  | 0, args => some ([], args)
  | _ + 1, [] => none
  | n + 1, a :: args =>
    (C.star a).bind fun i => (stars n args).map fun (is, args) => (i :: is, args)

/-- The text of a specification other than `%%`, and the arguments behind its own. -/
def convert (mods : List UInt8) (conv : UInt8) (args : List α) :
    Option (List UInt8 × List α) :=
  (stars C (mods.count 42) args).bind fun
    | (_, []) => none
    | (is, a :: args) => (C.text mods is conv a).map fun bs => (bs, args)

def print : List Piece → List α → Option (List UInt8)
  | [], _ => some []
  | .byte b :: ps, args => (print ps args).map (b :: ·)
  | .spec mods conv :: ps, args =>
    if conv = percent then
      if mods = [] then (print ps args).map (percent :: ·) else none
    else (convert C mods conv args).bind fun (bs, args) => (print ps args).map (bs ++ ·)

end Print

/-- The text of a format with its arguments. -/
def format {α : Type*} (C : Conversions α) (fmt : List UInt8) (args : List α) :
    Option (List UInt8) :=
  (pieces none fmt).bind fun ps => print C ps args

/-! ## Lemmas

Without arguments a specification either has no result or is `%%`, which prints one byte for two. So
the length of the text tells whether there was one.
-/

section Lemmas

variable {α : Type*} {C : Conversions α} {args : List α} {fmt out mods : List UInt8}
  {ps : List Piece} {st : Option (List UInt8)}

theorem pieces_of_plain (h : percent ∉ fmt) : pieces none fmt = some (fmt.map .byte) := by
  induction fmt with
  | nil => rfl
  | cons b fmt ih =>
    rw [List.mem_cons, not_or] at h
    rw [pieces, if_neg (Ne.symm h.1), ih h.2]
    rfl

theorem print_bytes (bs : List UInt8) : print C (bs.map .byte) args = some bs := by
  induction bs with
  | nil => rfl
  | cons b bs ih =>
    rw [List.map_cons, print, ih]
    rfl

/-- Without `%` a format prints itself. -/
theorem format_of_plain (h : percent ∉ fmt) : format C fmt args = some fmt := by
  rw [format, pieces_of_plain h, Option.bind_some, print_bytes]

/-- A conversion needs an argument. -/
theorem convert_nil {conv : UInt8} : convert C mods conv [] = none := by
  unfold convert
  cases mods.count 42 <;> rfl

/-- Without arguments nothing longer than the format is printed, and a specification, which can only
be `%%`, prints less. -/
theorem print_length (hps : pieces st fmt = some ps) (hout : print C ps [] = some out) :
    out.length ≤ fmt.length ∧ (st = none → percent ∈ fmt → out.length < fmt.length) := by
  induction fmt generalizing st ps out with
  | nil =>
    cases st with
    | none =>
      cases hps
      cases hout
      exact ⟨Nat.le_refl 0, fun _ h => absurd h (List.not_mem_nil)⟩
    | some mods => cases hps
  | cons b fmt ih =>
    cases st with
    | none =>
      rw [pieces] at hps
      split at hps
      · -- a specification starts
        obtain ⟨hle, -⟩ := ih hps hout
        exact ⟨Nat.le_succ_of_le hle, fun _ _ => Nat.lt_succ_of_le hle⟩
      · rename_i hb
        obtain ⟨qs, hqs, rfl⟩ := Option.map_eq_some_iff.mp hps
        obtain ⟨rest, hrest, rfl⟩ := Option.map_eq_some_iff.mp hout
        obtain ⟨hle, hlt⟩ := ih hqs hrest
        refine ⟨Nat.succ_le_succ hle, fun _ hmem => Nat.succ_lt_succ (hlt rfl ?_)⟩
        exact (List.mem_cons.mp hmem).resolve_left (Ne.symm hb)
    | some mods =>
      refine ⟨?_, fun h => absurd h (Option.some_ne_none mods)⟩
      rw [pieces] at hps
      split at hps
      · obtain ⟨qs, hqs, rfl⟩ := Option.map_eq_some_iff.mp hps
        rw [print] at hout
        split at hout
        · -- `%%`
          split at hout
          · obtain ⟨rest, hrest, rfl⟩ := Option.map_eq_some_iff.mp hout
            exact Nat.succ_le_succ (ih hqs hrest).1
          · cases hout
        · rw [convert_nil] at hout
          cases hout
      · split at hps
        · exact Nat.le_succ_of_le (ih hps hout).1
        · cases hps

/-- A format prints itself without arguments exactly if it has no `%`. -/
theorem format_eq_self_iff : format C fmt [] = some fmt ↔ percent ∉ fmt := by
  refine ⟨fun h hmem => ?_, format_of_plain⟩
  obtain ⟨ps, hps, hout⟩ := Option.bind_eq_some_iff.mp h
  exact Nat.lt_irrefl _ ((print_length hps hout).2 rfl hmem)

end Lemmas

end Format
