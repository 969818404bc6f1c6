/-! Labelled transition systems with a partial step function: `step s l` is the state after label `l`,
    or `none` where the label cannot be taken. A run is a list of labels; `Along` is a condition on
    every step of a run, stated about the state the step is taken from. -/

namespace Barnacle.Lib

variable {σ ℓ : Type}

/-- Take the labels one after another. -/
def run (step : σ → ℓ → Option σ) : σ → List ℓ → Option σ
  | s, [] => some s
  | s, l :: ls => (step s l).bind fun s' => run step s' ls

/-- Every step of the run is taken where `cond` holds. -/
def Along (step : σ → ℓ → Option σ) (cond : σ → ℓ → Prop) : σ → List ℓ → Prop
  | _, [] => True
  | s, l :: ls => cond s l ∧ ∀ s' ∈ step s l, Along step cond s' ls

instance decidableAlong (step : σ → ℓ → Option σ) (cond : σ → ℓ → Prop)
    [∀ s l, Decidable (cond s l)] : ∀ s ls, Decidable (Along step cond s ls)
  | _, [] => inferInstanceAs (Decidable True)
  | s, l :: ls =>
    let _ := fun s' => decidableAlong step cond s' ls
    inferInstanceAs (Decidable (cond s l ∧ ∀ s' ∈ step s l, Along step cond s' ls))

variable {step : σ → ℓ → Option σ} {cond cond' : σ → ℓ → Prop} {I : σ → Prop}

/-- Labels that may be taken anywhere. -/
theorem along_of_forall {ls : List ℓ} {s : σ} (h : ∀ l ∈ ls, ∀ s, cond s l) : Along step cond s ls := by
  induction ls generalizing s with
  | nil => exact trivial
  | cons l ls ih =>
    refine ⟨h l List.mem_cons_self s, ?_⟩
    intro t _
    exact ih fun l' hl => h l' (List.mem_cons_of_mem _ hl)

theorem Along.and {ls : List ℓ} {s : σ} (h : Along step cond s ls) (h' : Along step cond' s ls) :
    Along step (fun s l => cond s l ∧ cond' s l) s ls := by
  induction ls generalizing s with
  | nil => exact trivial
  | cons l ls ih => exact ⟨⟨h.1, h'.1⟩, fun t ht => ih (h.2 t ht) (h'.2 t ht)⟩

theorem Along.imp (h : ∀ s l, cond s l → cond' s l) {ls : List ℓ} {s : σ} (ha : Along step cond s ls) :
    Along step cond' s ls := by
  induction ls generalizing s with
  | nil => exact trivial
  | cons l ls ih => exact ⟨h s l ha.1, fun t ht => ih (ha.2 t ht)⟩

/-- The condition on the first part of a run. -/
theorem Along.earlier {ls ls' : List ℓ} {s : σ} (h : Along step cond s (ls ++ ls')) :
    Along step cond s ls := by
  induction ls generalizing s with
  | nil => exact trivial
  | cons l ls ih => exact ⟨h.1, fun t ht => ih (h.2 t ht)⟩

/-- The condition on the second part of a run, from where the first part ends. -/
theorem Along.later {ls ls' : List ℓ} {s s' : σ} (h : Along step cond s (ls ++ ls'))
    (hr : run step s ls = some s') : Along step cond s' ls' := by
  induction ls generalizing s with
  | nil =>
    rw [run, Option.some.injEq] at hr
    exact hr ▸ h
  | cons l ls ih =>
    rw [run, Option.bind_eq_some_iff] at hr
    obtain ⟨t, ht, hr⟩ := hr
    exact ih (h.2 t ht) hr

theorem run_append {ls ls' : List ℓ} {s s' : σ} (h : run step s ls = some s') :
    run step s (ls ++ ls') = run step s' ls' := by
  induction ls generalizing s with
  | nil =>
    rw [run, Option.some.injEq] at h
    rw [List.nil_append, h]
  | cons l ls ih =>
    rw [run, Option.bind_eq_some_iff] at h
    obtain ⟨t, ht, h⟩ := h
    rw [List.cons_append, run, ht, Option.bind_some]
    exact ih h

theorem Along.append {ls ls' : List ℓ} {s s' : σ} (h : Along step cond s ls) (hr : run step s ls = some s')
    (h' : Along step cond s' ls') : Along step cond s (ls ++ ls') := by
  induction ls generalizing s with
  | nil =>
    rw [run, Option.some.injEq] at hr
    exact hr ▸ h'
  | cons l ls ih =>
    rw [run, Option.bind_eq_some_iff] at hr
    obtain ⟨t, ht, hr⟩ := hr
    refine ⟨h.1, ?_⟩
    intro t' ht'
    obtain rfl : t = t' := Option.some.inj (ht.symm.trans ht')
    exact ih (h.2 t ht) hr

/-- A run ends in a state, and in which one is known as far as `f` tells. -/
theorem exists_run_of_map {τ : Type} {ls : List ℓ} {s : σ} {P : σ → Prop} (f : σ → τ) (x : τ)
    (h : (run step s ls).map f = some x) (hP : ∀ s', run step s ls = some s' → f s' = x → P s') :
    ∃ s', run step s ls = some s' ∧ P s' := by
  obtain ⟨s', hs, hx⟩ := Option.map_eq_some_iff.mp h
  exact ⟨s', hs, hP s' hs hx⟩

/-- What holds at the start and is kept by every step the run may take holds where it ends. -/
theorem run_inv_along (hstep : ∀ s l s', I s → cond s l → step s l = some s' → I s') {ls : List ℓ}
    {s s' : σ} (hi : I s) (ha : Along step cond s ls) (hr : run step s ls = some s') : I s' := by
  induction ls generalizing s with
  | nil =>
    rw [run, Option.some.injEq] at hr
    exact hr ▸ hi
  | cons l ls ih =>
    rw [run, Option.bind_eq_some_iff] at hr
    obtain ⟨t, ht, hr⟩ := hr
    exact ih (hstep s l t hi ha.1 ht) (ha.2 t ht) hr

/-- The invariant holds wherever a step of the run is taken. -/
theorem Along.of_inv (hstep : ∀ s l s', I s → cond s l → step s l = some s' → I s')
    {ls : List ℓ} {s : σ} (hi : I s) (ha : Along step cond s ls) : Along step (fun s _ => I s) s ls := by
  induction ls generalizing s with
  | nil => exact trivial
  | cons l ls ih => exact ⟨hi, fun t ht => ih (hstep s l t hi ha.1 ht) (ha.2 t ht)⟩

theorem run_inv (hstep : ∀ s l s', I s → step s l = some s' → I s') {ls : List ℓ} {s s' : σ}
    (hi : I s) (hr : run step s ls = some s') : I s' :=
  run_inv_along (fun s l s' h (_ : True) hs => hstep s l s' h hs) hi
    (along_of_forall fun _ _ _ => trivial) hr

end Barnacle.Lib
