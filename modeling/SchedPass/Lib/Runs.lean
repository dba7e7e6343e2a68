import Mathlib.Logic.Relation
import Mathlib.Data.Nat.Basic
import Mathlib.Order.WellFounded

set_option autoImplicit false

/-! # Runs of a transition system

A transition system is a step relation; `Reaches` is its reflexive-transitive closure. The rules are
the ones every safety and termination argument needs: an invariant holds along a run
(`Reaches.invariant`), an invariant of the source lets a run be mapped to a run of a more abstract
system (`Reaches.simulate`), and a measure that every step decreases makes every run finite and, with
progress, reach a final state (`acc_of_measure`, `exists_final`). -/

universe u v

variable {σ : Type u} {τ : Type v} {step : σ → σ → Prop} {astep : τ → τ → Prop}

/-- `s'` is reached from `s` by finitely many steps. -/
abbrev Reaches (step : σ → σ → Prop) (s s' : σ) : Prop := Relation.ReflTransGen step s s'

/-- What every step preserves holds along every run. -/
theorem Reaches.invariant {I : σ → Prop} (hstep : ∀ s s', I s → step s s' → I s') {s s' : σ}
    (h : Reaches step s s') (hs : I s) : I s' := by
  induction h with
  | refl => exact hs
  | tail _ hlast ih => exact hstep _ _ ih hlast

/-- A step relation preserves and relates: under an invariant, each step is matched by a run of the
    abstract system, so each run is. -/
theorem Reaches.simulate {I : σ → Prop} (f : σ → τ) (hstep : ∀ s s', I s → step s s' → I s')
    (hsim : ∀ s s', I s → step s s' → Reaches astep (f s) (f s')) {s s' : σ}
    (h : Reaches step s s') (hs : I s) : Reaches astep (f s) (f s') := by
  induction h with
  | refl => exact .refl
  | tail hrun hlast ih => exact ih.trans (hsim _ _ (Reaches.invariant hstep hrun hs) hlast)

/-- An executable step, folded over a list of choices, gives a run. -/
theorem Reaches.of_foldlM {α : Type v} {f : σ → α → Option σ}
    (hf : ∀ s a s', f s a = some s' → step s s') {s s' : σ} {as : List α}
    (h : as.foldlM f s = some s') : Reaches step s s' := by
  induction as generalizing s with
  | nil =>
      cases h
      exact .refl
  | cons a as ih =>
      rw [List.foldlM_cons, Option.bind_eq_bind, Option.bind_eq_some_iff] at h
      obtain ⟨s₁, hstep, hrest⟩ := h
      exact (ih hrest).head (hf _ _ _ hstep)

section Measure

variable {I : σ → Prop} {μ : σ → ℕ} (hstep : ∀ s s', I s → step s s' → I s')
  (hdec : ∀ s s', I s → step s s' → μ s' < μ s)

include hstep hdec

/-- A decreasing measure rules out infinite runs. -/
theorem acc_of_measure {s : σ} (hs : I s) : Acc (fun s' s => step s s') s := by
  induction hn : μ s using Nat.strong_induction_on generalizing s with
  | _ n ih =>
      refine Acc.intro s fun s' hss => ?_
      exact ih (μ s') (hn ▸ hdec s s' hs hss) (hstep s s' hs hss) rfl

/-- With progress in every state that is not final, some final state is reached. -/
theorem exists_final {Final : σ → Prop} (hprog : ∀ s, I s → ¬ Final s → ∃ s', step s s') {s : σ}
    (hs : I s) : ∃ s', Reaches step s s' ∧ Final s' := by
  induction hn : μ s using Nat.strong_induction_on generalizing s with
  | _ n ih =>
      by_cases hf : Final s
      · exact ⟨s, .refl, hf⟩
      · obtain ⟨s₁, hss⟩ := hprog s hs hf
        obtain ⟨s₂, hrun, hfinal⟩ := ih (μ s₁) (hn ▸ hdec s s₁ hs hss) (hstep s s₁ hs hss) rfl
        exact ⟨s₂, hrun.head hss, hfinal⟩

end Measure
