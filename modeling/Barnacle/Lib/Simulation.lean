import Mathlib.Data.List.Induction
import Barnacle.Lib.Transition

/-! A system seen through another. `view` is what a state shows, and `op` the label of the other system
    that a step shows as, or `none` where it shows nothing. Where every step is matched, so is every
    run; a state can be held against all that has shown; and what a run has at its end, but not at its
    start, began with one of its steps. -/

namespace Barnacle.Lib

variable {σ ℓ τ μ : Type} {step : σ → ℓ → Option σ} {cond : σ → ℓ → Prop} {I : σ → Prop}

/-- What a run shows. -/
def visible (step : σ → ℓ → Option σ) (op : σ → ℓ → Option μ) : σ → List ℓ → List μ
  | _, [] => []
  | s, l :: ls => (op s l).toList ++ (step s l).elim [] fun s' => visible step op s' ls

/-- A step of the one is a step of the other, or nothing that shows. -/
def Matches (step' : τ → μ → Option τ) (t : τ) (m : Option μ) (t' : τ) : Prop :=
  match m with
  | none => t' = t
  | some m => step' t m = some t'

theorem Matches.run {step' : τ → μ → Option τ} {t t' : τ} {m : Option μ} (h : Matches step' t m t') :
    run step' t m.toList = some t' := by
  cases m with
  | none => exact congrArg some (Eq.symm h)
  | some m =>
    rw [Option.toList_some, Lib.run, h]
    rfl

theorem run_view {step' : τ → μ → Option τ} {view : σ → τ} {op : σ → ℓ → Option μ}
    (hstep : ∀ s l s', I s → cond s l → step s l = some s' → I s' ∧ Matches step' (view s) (op s l) (view s'))
    {ls : List ℓ} {s s' : σ} (hi : I s) (ha : Along step cond s ls) (hr : run step s ls = some s') :
    I s' ∧ run step' (view s) (visible step op s ls) = some (view s') := by
  induction ls generalizing s with
  | nil =>
    rw [run, Option.some.injEq] at hr
    exact hr ▸ ⟨hi, rfl⟩
  | cons l ls ih =>
    rw [run, Option.bind_eq_some_iff] at hr
    obtain ⟨t, ht, hr⟩ := hr
    obtain ⟨hi', hm⟩ := hstep s l t hi ha.1 ht
    obtain ⟨hi'', hrun⟩ := ih hi' (ha.2 t ht) hr
    refine ⟨hi'', ?_⟩
    rw [visible, ht, run_append hm.run]
    exact hrun

/-- What a state says of everything that has shown so far. -/
theorem run_history {op : σ → ℓ → Option μ} {J : σ → List μ → Prop}
    (hstep : ∀ s past l s', J s past → step s l = some s' → J s' (past ++ (op s l).toList))
    {ls : List ℓ} {s s' : σ} {past : List μ} (hj : J s past) (hr : run step s ls = some s') :
    J s' (past ++ visible step op s ls) := by
  induction ls generalizing s past with
  | nil =>
    rw [run, Option.some.injEq] at hr
    rw [visible, List.append_nil]
    exact hr ▸ hj
  | cons l ls ih =>
    rw [run, Option.bind_eq_some_iff] at hr
    obtain ⟨t, ht, hr⟩ := hr
    rw [visible, ht, ← List.append_assoc]
    exact ih (hstep s past l t hj ht) hr

/-- What every step adds to a log is, of a whole run, what its steps add. -/
theorem run_log {ω : Type} {out : ℓ → List ω} (log : σ → List ω)
    (hstep : ∀ s l s', I s → cond s l → step s l = some s' → I s' ∧ log s' = log s ++ out l)
    {ls : List ℓ} {s s' : σ} (hi : I s) (ha : Along step cond s ls) (hr : run step s ls = some s') :
    log s' = log s ++ ls.flatMap out := by
  induction ls generalizing s with
  | nil =>
    rw [run, Option.some.injEq] at hr
    rw [hr, List.flatMap_nil, List.append_nil]
  | cons l ls ih =>
    rw [run, Option.bind_eq_some_iff] at hr
    obtain ⟨t, ht, hr⟩ := hr
    obtain ⟨hi', hlog⟩ := hstep s l t hi ha.1 ht
    rw [ih hi' (ha.2 t ht) hr, hlog, List.flatMap_cons, List.append_assoc]

theorem run_append_bind {ls ls' : List ℓ} {s : σ} :
    run step s (ls ++ ls') = (run step s ls).bind fun t => run step t ls' := by
  induction ls generalizing s with
  | nil => rfl
  | cons l ls ih =>
    rw [List.cons_append, run, run, Option.bind_assoc]
    exact Option.bind_congr fun t _ => ih

/-- What holds at the end of a run and not at its start began with a step, and has held since. -/
theorem run_since {P : σ → Prop} {ls : List ℓ} {s s' : σ} (hr : run step s ls = some s') (h0 : ¬P s) (h : P s') :
    ∃ before l after t t', ls = before ++ l :: after ∧ run step s before = some t ∧ ¬P t ∧
      step t l = some t' ∧ P t' ∧
        ∀ ls₁ ls₂ u, after = ls₁ ++ ls₂ → run step t' ls₁ = some u → P u := by
  induction ls using List.reverseRecOn generalizing s' with
  | nil =>
    rw [run, Option.some.injEq] at hr
    exact absurd (hr ▸ h) h0
  | append_singleton ls l ih =>
    rw [run_append_bind, Option.bind_eq_some_iff] at hr
    obtain ⟨t, hmid, hr⟩ := hr
    rw [run, Option.bind_eq_some_iff] at hr
    obtain ⟨t', hl, ht'⟩ := hr
    obtain rfl : t' = s' := Option.some.inj ht'
    by_cases hp : P t
    · obtain ⟨before, k, after, u, u', rfl, hb, hu, hk, hu', hsince⟩ := ih hmid hp
      refine ⟨before, k, after ++ [l], u, u', by simp, hb, hu, hk, hu', ?_⟩
      intro ls₁ ls₂ v e hv
      rcases List.eq_nil_or_concat ls₂ with rfl | ⟨ls₂, x, rfl⟩
      · -- the whole of it
        rw [List.append_nil] at e
        subst e
        rw [run_append hb, run, hk, Option.bind_some] at hmid
        rw [run_append hmid, run, hl] at hv
        exact Option.some.inj hv ▸ h
      · rw [List.concat_eq_append, ← List.append_assoc] at e
        exact hsince ls₁ ls₂ v (List.append_inj_left' e rfl) hv
    · refine ⟨ls, l, [], t, t', rfl, hmid, hp, hl, h, ?_⟩
      intro ls₁ ls₂ u e hu
      obtain ⟨rfl, -⟩ := List.append_eq_nil_iff.mp e.symm
      exact Option.some.inj hu ▸ h

end Barnacle.Lib
