import Mathlib.Data.List.Basic

/-!
# Runs of a labelled partial step function

A system is a partial function `step : σ → α → Option σ`: `none` means that the action is not
enabled in the state. An interleaving of several threads is a list of actions. The two rules that
every safety proof over such a system uses are stated once here: an invariant preserved by every
enabled step holds at the end of every run, and an invariant preserved by every enabled step that
meets a side condition holds at the end of every run all of whose steps meet it.
-/

namespace Run

variable {σ α : Type*} (step : σ → α → Option σ)

/-- Execute the actions from left to right; `none` as soon as one of them is not enabled. -/
def exec : σ → List α → Option σ
  | s, [] => some s
  | s, a :: as => (step s a).bind fun s' => exec s' as

/-- Every step that the run takes meets the side condition `ok`. -/
def Within (ok : σ → α → Prop) : σ → List α → Prop
  | _, [] => True
  | s, a :: as => ok s a ∧ ∀ s', step s a = some s' → Within ok s' as

/-- A run within a decidable side condition can be checked by executing it. -/
instance decidableWithin (ok : σ → α → Prop) [∀ s a, Decidable (ok s a)] :
    ∀ s as, Decidable (Within step ok s as)
  | _, [] => isTrue trivial
  | s, a :: as =>
    match h : step s a with
    | none => decidable_of_iff (ok s a) ⟨fun hok => ⟨hok, by simp [h]⟩, And.left⟩
    | some m =>
      let _ := decidableWithin ok m as
      decidable_of_iff (ok s a ∧ Within step ok m as)
        ⟨fun ⟨hok, hrest⟩ => ⟨hok, by simpa [h] using hrest⟩,
          fun ⟨hok, hrest⟩ => ⟨hok, hrest m h⟩⟩

variable {step}

theorem exec_cons {s s' : σ} {a : α} {as : List α} :
    exec step s (a :: as) = some s' ↔ ∃ m, step s a = some m ∧ exec step m as = some s' := by
  simp [exec, Option.bind_eq_some_iff]

theorem exec_append {s : σ} {as bs : List α} :
    exec step s (as ++ bs) = (exec step s as).bind fun m => exec step m bs := by
  induction as generalizing s with
  | nil => rfl
  | cons a as ih => simp [exec, ih, Option.bind_assoc]

/-- A run whose steps all meet `ok` keeps every invariant that such steps keep. -/
theorem invariant_of_within {ok : σ → α → Prop} (inv : σ → Prop)
    (hstep : ∀ s a s', inv s → ok s a → step s a = some s' → inv s')
    {s s' : σ} {as : List α} (hok : Within step ok s as) (hrun : exec step s as = some s')
    (hs : inv s) : inv s' := by
  induction as generalizing s with
  | nil =>
    cases hrun
    exact hs
  | cons a as ih =>
    obtain ⟨m, hm, hrest⟩ := exec_cons.mp hrun
    obtain ⟨ha, hnext⟩ := hok
    exact ih (hnext m hm) hrest (hstep s a m hs ha hm)

/-- Two side conditions that agree wherever an invariant holds allow the same runs. -/
theorem within_congr {ok ok' : σ → α → Prop} (inv : σ → Prop)
    (hiff : ∀ s a, inv s → (ok s a ↔ ok' s a))
    (hstep : ∀ s a s', inv s → ok' s a → step s a = some s' → inv s') {s : σ} (hs : inv s)
    (as : List α) : Within step ok s as ↔ Within step ok' s as := by
  induction as generalizing s with
  | nil => exact Iff.rfl
  | cons a as ih =>
    simp only [Within, hiff s a hs]
    refine and_congr_right fun ha => forall_congr' fun s' => ?_
    refine imp_congr_right fun hm => ?_
    exact ih (hstep s a s' hs ha hm)

theorem within_of_mem {ok : σ → α → Prop} {as : List α} (h : ∀ a ∈ as, ∀ s, ok s a) (s : σ) :
    Within step ok s as := by
  induction as generalizing s with
  | nil => trivial
  | cons a as ih =>
    exact ⟨h a (List.mem_cons_self ..) s,
      fun s' _ => ih (fun b hb => h b (List.mem_cons_of_mem _ hb)) s'⟩

theorem within_true (s : σ) (as : List α) : Within step (fun _ _ => True) s as := by
  induction as generalizing s with
  | nil => trivial
  | cons a as ih => exact ⟨trivial, fun s' _ => ih s'⟩

/-- An invariant that every enabled step keeps holds after every run. -/
theorem invariant (inv : σ → Prop)
    (hstep : ∀ s a s', inv s → step s a = some s' → inv s')
    {s s' : σ} {as : List α} (hrun : exec step s as = some s') (hs : inv s) : inv s' :=
  invariant_of_within inv (fun s a s' hi _ h => hstep s a s' hi h) (within_true s as) hrun hs

/-- A rank that the steps in `mine` lower while the system is busy, and that no other step raises,
bounds the number of these steps. -/
theorem countP_le_of_rank {ok : σ → α → Prop} (inv busy : σ → Prop) (rank : σ → Nat)
    (mine : α → Bool) (hstep : ∀ s a s', inv s → ok s a → step s a = some s' → inv s')
    (hrank : ∀ s a s', inv s → busy s → ok s a → step s a = some s' →
      rank s' + (if mine a = true then 1 else 0) ≤ rank s)
    {s s' : σ} {as : List α} (hok : Within step (fun s a => ok s a ∧ busy s) s as)
    (hrun : exec step s as = some s') (hs : inv s) : rank s' + as.countP mine ≤ rank s := by
  induction as generalizing s with
  | nil =>
    cases hrun
    exact Nat.le_refl _
  | cons a as ih =>
    obtain ⟨m, hm, hrest⟩ := exec_cons.mp hrun
    obtain ⟨⟨ha, hbusy⟩, hnext⟩ := hok
    have hfirst := hrank s a m hs hbusy ha hm
    have hothers := ih (hnext m hm) hrest (hstep s a m hs ha hm)
    rw [List.countP_cons]
    omega

/-- Where each step adds to what the system has put out only what its action calls for, a run puts
out what its actions call for, in order. -/
theorem output_exec {β : Type*} (out : σ → List β) (emit : α → List β)
    (hstep : ∀ s a s', step s a = some s' → out s' = out s ++ emit a) {s s' : σ} {as : List α}
    (hrun : exec step s as = some s') : out s' = out s ++ as.flatMap emit := by
  induction as generalizing s with
  | nil =>
    cases hrun
    exact (List.append_nil _).symm
  | cons a as ih =>
    obtain ⟨m, hm, hrest⟩ := exec_cons.mp hrun
    rw [ih hrest, hstep s a m hm, List.flatMap_cons, List.append_assoc]

/-! ## Simulation -/

/-- A run of a system that is given by a relation. -/
inductive Trace {τ : Type*} (next : τ → α → τ → Prop) : τ → List α → τ → Prop
  | nil (t : τ) : Trace next t [] t
  | cons {t t' t'' : τ} {a : α} {as : List α} (hfirst : next t a t')
      (hrest : Trace next t' as t'') : Trace next t (a :: as) t''

theorem Trace.append {τ : Type*} {next : τ → α → τ → Prop} {t t' t'' : τ} {as bs : List α}
    (h : Trace next t as t') (h' : Trace next t' bs t'') : Trace next t (as ++ bs) t'' := by
  induction h with
  | nil t => exact h'
  | cons hfirst hrest ih => exact .cons hfirst (ih h')

/-- A step function that follows each step of a relation follows its runs. -/
theorem exec_of_trace {τ : Type*} {next : τ → α → τ → Prop} (rep : σ → τ → Prop)
    (hstep : ∀ s t a t', rep s t → next t a t' → ∃ s', step s a = some s' ∧ rep s' t')
    {s : σ} {t t' : τ} {as : List α} (htrace : Trace next t as t') (hs : rep s t) :
    ∃ s', exec step s as = some s' ∧ rep s' t' := by
  induction htrace generalizing s with
  | nil t => exact ⟨s, rfl, hs⟩
  | cons hfirst hrest ih =>
    obtain ⟨m, hm, hrep⟩ := hstep _ _ _ _ hs hfirst
    obtain ⟨s', hs', hrep'⟩ := ih hrep
    exact ⟨s', exec_cons.mpr ⟨m, hm, hs'⟩, hrep'⟩

end Run
