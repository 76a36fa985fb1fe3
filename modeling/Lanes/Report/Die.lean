import Lanes.Lib.CString
import Lanes.Lib.Format

/-!
# `die` and `debug`

The reports of `util.c`. `die` formats its text into `msg`, appends that to the colour prefix in
`color` and hands `color` to `debug`, which takes it for a format once more. The text comes out as
it is exactly when it has no `%`.

The two arrays lie anywhere in the stack, apart from each other. The bounds that `die` passes on are
those of whole arrays, so that nothing is overrun rests on the lengths: the prefix has 7 bytes and
`vsnprintf` leaves at most 244. `faithful_iff` puts the array and the printing together; its
condition is on the text and the debug level.
-/

namespace Lanes

open Format

/-! ## The code -/

/-- The two arrays on the stack of `die`. -/
structure DieFrame where
  /-- `char msg[245]`. -/
  msg : Nat
  /-- `char color[256]`. -/
  color : Nat
  apart : msg + 245 ≤ color ∨ color + 256 ≤ msg

inductive Output where
  | stdout (bs : List UInt8)
  | perror (s : CStr)
  deriving DecidableEq

/-- What a call of `die` leaves: the stack, what it wrote, and the status if the process ended. -/
structure Report where
  mem : Mem
  output : List Output
  exited : Option Int

/-- The colour that every report starts with. -/
def colorPrefix : CStr := "\x1b[1;31m"

section Code

variable {α : Type*} (C : Conversions α)

/-- `debug (level, s, …)`; `lvl` is `global.debug`. -/
def debug (lvl level : Int) (s : CStr) (args : List α) : Option (List Output) :=
  if level ≤ lvl then (format C s.val args).map fun bs => [.stdout bs] else some []

/-- The array `color` as `die` builds it of the formatted text. -/
def dieMem (frame : DieFrame) (m : Mem) (text : List UInt8) : Mem :=
  let m := m.strncpy frame.color colorPrefix 256
  let m := m.vsnprintf frame.msg 245 text
  -- the bound is the size of the array, not the room behind the prefix
  m.strncat frame.color 256 (m.str frame.msg 245) 256

/-- `die (really, why, …)`; `none` is a format that the standard leaves undefined. -/
def die (lvl : Int) (frame : DieFrame) (m : Mem) (really : Int) (why : CStr) (args : List α) :
    Option Report :=
  (format C why.val args).bind fun text =>
    let m := dieMem frame m text
    let color := m.str frame.color 256
    (debug C lvl 4 color []).map fun printed =>
      if really ≠ 0 then ⟨m, .perror color :: printed, some really⟩
      else ⟨m, printed ++ [.perror color], none⟩

end Code

/-! ## The law

What a report should be, for any text: prefix, text, nothing written elsewhere, and on the terminal
what is in the array.
-/

/-- What `die` should report of a formatted text. -/
def reported (text : List UInt8) : List UInt8 := colorPrefix.val ++ text.take 244

/-- The bytes on the standard output. -/
def printedBytes (output : List Output) : List UInt8 :=
  output.flatMap fun
    | .stdout bs => bs
    | .perror _ => []

/-- A report of the text: the array holds it, outside the array only what `vsnprintf` stored in
`msg` has changed, and from debug level 4 on the text is what was printed. -/
structure Report.Faithful (r : Report) (lvl : Int) (frame : DieFrame) (m : Mem)
    (text : List UInt8) : Prop where
  color : (r.mem.str frame.color 256).val = reported text
  inside : ∀ x, (x < frame.color ∨ frame.color + 256 ≤ x) →
    r.mem x = m.vsnprintf frame.msg 245 text x
  printed : 4 ≤ lvl → printedBytes r.output = reported text

/-! ## The array

Three writes one after the other. Each keeps what the next one relies on: the prefix is there when
`strncat` looks for its end, and the formatted text when `strncat` copies it.
-/

section Law

variable {α : Type*} {C : Conversions α} {lvl : Int} {frame : DieFrame} {m : Mem} {really : Int}
  {why : CStr} {args : List α} {text : List UInt8}

/-- The two strings that `strncat` joins. -/
theorem dieMem_parts (frame : DieFrame) (m : Mem) (text : List UInt8) :
    ((m.strncpy frame.color colorPrefix 256).vsnprintf frame.msg 245 text).str frame.color 256 =
        colorPrefix ∧
      ((m.strncpy frame.color colorPrefix 256).vsnprintf frame.msg 245 text).str frame.msg 245 =
        cstr (text.take 244) := by
  refine ⟨?_, Mem.str_vsnprintf (by decide)⟩
  have hpre : (m.strncpy frame.color colorPrefix 256).str frame.color 256 = colorPrefix :=
    Mem.str_strncpy (by decide) (Nat.le_refl 256)
  refine Eq.trans (Mem.str_congr fun k hk => Mem.vsnprintf_apply_outside ?_) hpre
  have := frame.apart
  omega

/-- The appended string fits: the prefix has 7 bytes and `vsnprintf` left at most 244. -/
theorem dieMem_room (frame : DieFrame) (m : Mem) (text : List UInt8) :
    let m' := (m.strncpy frame.color colorPrefix 256).vsnprintf frame.msg 245 text
    (m'.str frame.msg 245).length ≤ 256 ∧
      (m'.str frame.color 256).length + (m'.str frame.msg 245).length < 256 := by
  obtain ⟨hcolor, hmsg⟩ := dieMem_parts frame m text
  have hcut : (cstr (text.take 244)).length ≤ 244 :=
    Nat.le_trans (cstr_length_le _) (List.length_take_le 244 text)
  have hpre : colorPrefix.length = 7 := by decide
  simp only [hcolor, hmsg]
  omega

theorem color_dieMem (frame : DieFrame) (m : Mem) (text : List UInt8) :
    ((dieMem frame m text).str frame.color 256).val =
      colorPrefix.val ++ (cstr (text.take 244)).val := by
  obtain ⟨hcolor, hmsg⟩ := dieMem_parts frame m text
  obtain ⟨hlen, hroom⟩ := dieMem_room frame m text
  rw [dieMem, Mem.str_strncat hlen hroom, hcolor, hmsg]

theorem dieMem_outside {x : Nat} (hx : x < frame.color ∨ frame.color + 256 ≤ x) :
    dieMem frame m text x = m.vsnprintf frame.msg 245 text x := by
  obtain ⟨hlen, hroom⟩ := dieMem_room frame m text
  rw [dieMem, Mem.strncat_apply_outside hlen hroom hx]
  exact Mem.vsnprintf_apply_congr (Mem.strncpy_apply_outside hx)

/-- The array holds the text up to its first NUL. -/
theorem color_eq_reported_iff : ((dieMem frame m text).str frame.color 256).val = reported text ↔
    (0 : UInt8) ∉ text.take 244 := by
  rw [color_dieMem, reported, List.append_cancel_left_eq]
  exact ⟨fun h => h ▸ (cstr (text.take 244)).property, cstr_of_not_mem⟩

/-! ## The report

The array is printed as a format without arguments, and a text prints itself exactly if it has no
specification in it (`format_eq_self_iff`). The prefix has none.
-/

/-- What is printed does not depend on the order of the two outputs. -/
theorem printedBytes_perror (s : CStr) (output : List Output) :
    printedBytes (.perror s :: output) = printedBytes output ∧
      printedBytes (output ++ [.perror s]) = printedBytes output := by
  simp [printedBytes]

/-- A call of `die` that is defined: the stack and what `debug` printed. -/
theorem die_eq_some (htext : format C why.val args = some text) {r : Report}
    (hr : die C lvl frame m really why args = some r) :
    ∃ printed, debug C lvl 4 ((dieMem frame m text).str frame.color 256) [] = some printed ∧
      r.mem = dieMem frame m text ∧ printedBytes r.output = printedBytes printed := by
  rw [die, htext] at hr
  obtain ⟨printed, hprinted, rfl⟩ := Option.map_eq_some_iff.mp hr
  refine ⟨printed, hprinted, ?_⟩
  split
  · exact ⟨rfl, (printedBytes_perror _ _).1⟩
  · exact ⟨rfl, (printedBytes_perror _ _).2⟩

theorem exists_die (htext : format C why.val args = some text) {printed : List Output}
    (hprinted : debug C lvl 4 ((dieMem frame m text).str frame.color 256) [] = some printed) :
    ∃ r, die C lvl frame m really why args = some r := by
  rw [die, htext]
  exact ⟨_, Option.map_eq_some_iff.mpr ⟨printed, hprinted, rfl⟩⟩

/-- `debug` without arguments prints its string as it is exactly if that has no `%`. -/
theorem debug_self_iff {level : Int} {s : CStr} (hlevel : level ≤ lvl) :
    (∃ printed, debug C lvl level s [] = some printed ∧ printedBytes printed = s.val) ↔
      percent ∉ s.val := by
  rw [debug, if_pos hlevel, ← format_eq_self_iff (C := C)]
  constructor
  · rintro ⟨printed, hprinted, hself⟩
    obtain ⟨out, hout, rfl⟩ := Option.map_eq_some_iff.mp hprinted
    rw [hout, ← hself]
    simp [printedBytes]
  · intro hself
    exact ⟨[.stdout s.val], by rw [hself]; rfl, by simp [printedBytes]⟩

theorem percent_reported_iff : percent ∈ reported text ↔ percent ∈ text.take 244 := by
  have hpre : percent ∉ colorPrefix.val := by decide
  rw [reported, List.mem_append, or_iff_right hpre]

theorem Report.Faithful.plain (htext : format C why.val args = some text) {r : Report}
    (hr : die C lvl frame m really why args = some r) (hfaithful : r.Faithful lvl frame m text)
    (hlevel : 4 ≤ lvl) : percent ∉ text.take 244 := by
  obtain ⟨printed, hprinted, hmem, hout⟩ := die_eq_some htext hr
  have hcolor := hfaithful.color
  rw [hmem] at hcolor
  rw [← percent_reported_iff, ← hcolor]
  refine (debug_self_iff hlevel).mp ⟨printed, hprinted, ?_⟩
  rw [← hout, hfaithful.printed hlevel, hcolor]

/-- **Reports.** A report of a formatted text is faithful exactly when the part of the text that
fits has no NUL and, from debug level 4 on, no `%`. -/
theorem faithful_iff (htext : format C why.val args = some text) :
    (∃ r, die C lvl frame m really why args = some r ∧ r.Faithful lvl frame m text) ↔
      (0 : UInt8) ∉ text.take 244 ∧ (4 ≤ lvl → percent ∉ text.take 244) := by
  constructor
  · rintro ⟨r, hr, hfaithful⟩
    obtain ⟨-, -, hmem, -⟩ := die_eq_some htext hr
    exact ⟨color_eq_reported_iff.mp (hmem ▸ hfaithful.color), hfaithful.plain htext hr⟩
  · rintro ⟨hzero, hplain⟩
    have hcolor : ((dieMem frame m text).str frame.color 256).val = reported text :=
      color_eq_reported_iff.mpr hzero
    -- below level 4 `debug` does nothing
    have hdebug : ∃ printed, debug C lvl 4 ((dieMem frame m text).str frame.color 256) [] =
        some printed ∧ (4 ≤ lvl → printedBytes printed = reported text) := by
      by_cases hlevel : 4 ≤ lvl
      · obtain ⟨printed, hprinted, hself⟩ := (debug_self_iff (C := C) hlevel).mpr
          (hcolor.symm ▸ fun h => hplain hlevel (percent_reported_iff.mp h))
        exact ⟨printed, hprinted, fun _ => hself.trans hcolor⟩
      · exact ⟨[], if_neg hlevel, fun h => absurd h hlevel⟩
    obtain ⟨printed, hprinted, hlaw⟩ := hdebug
    obtain ⟨r, hr⟩ : ∃ r, die C lvl frame m really why args = some r := exists_die htext hprinted
    obtain ⟨printed', hprinted', hmem, hout⟩ := die_eq_some htext hr
    obtain rfl : printed = printed' := Option.some.inj (hprinted.symm.trans hprinted')
    refine ⟨r, hr, ?_, fun x hx => ?_, fun hlevel => hout.trans (hlaw hlevel)⟩
    · rw [hmem, hcolor]
    · rw [hmem, dieMem_outside hx]

end Law

/-! ## Two reports

With the conversions that the calls of the source use.
-/

/-- The arguments that the reports of the source take. -/
inductive Arg where
  | int (i : Int)
  | str (s : CStr)

/-- Their conversions, `%s`, `%i` and `%d`, without modifiers. -/
def plainConversions : Conversions Arg where
  star
    | .int i => some i
    | .str _ => none
  text mods _ conv arg :=
    match arg with
    | .str s => if mods = [] ∧ conv = 115 then some s.val else none
    | .int i =>
      if mods = [] ∧ (conv = 105 ∨ conv = 100) then some (CStr.ofString (toString i)).val else none

/-- The arrays next to each other. -/
def dieFrame : DieFrame := ⟨0, 245, by decide⟩

theorem faithful_tuntap : ∃ r,
    die plainConversions 4 dieFrame (fun _ => 255) 0 "TUNTAP error %s for %s not ready"
      [.str "tap0", .str "r1"] = some r ∧
    r.Faithful 4 dieFrame (fun _ => 255)
      (CStr.ofString "TUNTAP error tap0 for r1 not ready").val :=
  (faithful_iff (by decide)).mpr ⟨by decide, fun _ => by decide⟩

/-- The same report for a peer `r%%1`. -/
theorem faithful_fails : ¬ ∀ (C : Conversions Arg) (lvl : Int) (frame : DieFrame) (m : Mem)
    (really : Int) (why : CStr) (args : List Arg) (text : List UInt8),
    format C why.val args = some text →
      ∃ r, die C lvl frame m really why args = some r ∧ r.Faithful lvl frame m text := by
  intro hall
  have htext : format plainConversions (CStr.ofString "TUNTAP error %s for %s not ready").val
      [.str "tap0", .str "r%%1"] =
        some (CStr.ofString "TUNTAP error tap0 for r%%1 not ready").val := by decide
  obtain ⟨r, hr, hfaithful⟩ := hall _ 4 dieFrame (fun _ => 255) 0 _ _ _ htext
  exact hfaithful.plain htext hr (Int.le_refl 4) (by decide)

end Lanes
