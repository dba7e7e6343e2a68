import Mathlib.Analysis.SpecialFunctions.Exp
import SchedPass.Lib.OnlineSoftmax
import SchedPass.Weave.Policy

set_option autoImplicit false

/-! # Loops under a shed mask

A kernel streams its tokens page by page: an outer loop over pages, and within it the innermost loop
whose iteration counter the masks compare with the budget. In an online softmax the masks replace the
score by `-∞`, in a linear contraction the streamed value by 0. Either way the loop ends as if each
execution of the innermost loop had stopped after `tau` tokens (`maskedLoops_eq_truncated`). -/

namespace SchedPass

universe u

variable {𝕜 : Type u}

/-! ## The two masks -/

/-- `s' = keep ? s : -inf`. -/
def maskScore (token : WithBot 𝕜 × 𝕜) : WithBot 𝕜 × 𝕜 := (⊥, token.2)

/-- `v' = keep ? v : 0`. -/
def maskValue [Zero 𝕜] (term : 𝕜 × 𝕜) : 𝕜 × 𝕜 := (0, term.2)

/-- A finite score and its value. -/
def token (p : 𝕜 × 𝕜) : WithBot 𝕜 × 𝕜 := (p.1, p.2)

/-! ## The loops -/

section

variable [Ring 𝕜]

/-- `acc += v * w` over all pages. -/
def contractPages (pages : List (List (𝕜 × 𝕜))) (acc : 𝕜) : 𝕜 :=
  pages.foldl (fun acc page => page.foldl contractStep acc) acc

/-- The same loop with the value mask, for an induction variable of `width` bits. -/
def maskedContractPages (width budget : ℕ) (pages : List (List (𝕜 × 𝕜))) (acc : 𝕜) : 𝕜 :=
  pages.foldl (maskedLoop contractStep maskValue (shedKeep width budget)) acc

variable [LinearOrder 𝕜]

/-- The online softmax over all pages. -/
def softmaxPages (exp : WithBot 𝕜 → 𝕜) (pages : List (List (𝕜 × 𝕜))) (st : SoftmaxState 𝕜) :
    SoftmaxState 𝕜 :=
  (pages.map (List.map token)).foldl (fun st page => page.foldl (softmaxStep exp) st) st

/-- The same loop with the score mask. -/
def maskedSoftmaxPages (exp : WithBot 𝕜 → 𝕜) (width budget : ℕ) (pages : List (List (𝕜 × 𝕜)))
    (st : SoftmaxState 𝕜) : SoftmaxState 𝕜 :=
  (pages.map (List.map token)).foldl
    (maskedLoop (softmaxStep exp) maskScore (shedKeep width budget)) st

end

/-! ## Masked is truncated -/

/-- Every execution of the innermost loop is short enough to be counted, by 32 bits and by the
    induction variable. -/
def Countable {α : Type u} (width : ℕ) (pages : List (List α)) : Prop :=
  ∀ page ∈ pages, page.length < 2 ^ 32 ∧ page.length ≤ 2 ^ width

theorem Countable.keep {α : Type u} {width : ℕ} {pages : List (List α)} (h : Countable width pages)
    (budget : ℕ) : ∀ page ∈ pages, ∀ t < page.length,
      shedKeep width budget t = decide (t < budget) := by
  intro page hpage t ht
  refine shedKeep_of_lt ?_ budget
  obtain ⟨h32, hw⟩ := h page hpage
  rcases min_choice width 32 with hmin | hmin <;> rw [counterRange, hmin] <;> omega

theorem Countable.map {α β : Type u} {width : ℕ} {pages : List (List α)} (f : α → β)
    (h : Countable width pages) : Countable width (pages.map (List.map f)) := by
  intro page hpage
  obtain ⟨page, hmem, rfl⟩ := List.mem_map.1 hpage
  rw [List.length_map]
  exact h page hmem

section

variable [Ring 𝕜]

theorem contractPages_eq (pages : List (List (𝕜 × 𝕜))) (acc : 𝕜) :
    contractPages pages acc = acc + (pages.map fun page => (page.map fun p => p.1 * p.2).sum).sum := by
  induction pages generalizing acc with
  | nil => simp [contractPages]
  | cons page pages ih =>
      rw [contractPages, List.foldl_cons, foldl_contractStep, ← contractPages, ih, List.map_cons,
        List.sum_cons, add_assoc]

theorem maskedContractPages_eq {width budget : ℕ} {pages : List (List (𝕜 × 𝕜))}
    (h : Countable width pages) (acc : 𝕜) :
    maskedContractPages width budget pages acc
      = contractPages (pages.map (List.take budget)) acc := by
  rw [contractPages, List.foldl_map]
  exact foldl_nest_eq_take (I := fun _ => True) (fun _ _ _ => trivial)
    (fun acc p _ => contractStep_zero acc p.2) (h.keep budget) trivial

variable [LinearOrder 𝕜]

theorem maskedSoftmaxPages_eq {exp : WithBot 𝕜 → 𝕜} (hexp : ExpLaws exp) {width budget : ℕ}
    {pages : List (List (𝕜 × 𝕜))} (h : Countable width pages) {st : SoftmaxState 𝕜}
    (hst : st.m ≠ ⊥) :
    maskedSoftmaxPages exp width budget pages st
      = softmaxPages exp (pages.map (List.take budget)) st := by
  have htake : (pages.map (List.take budget)).map (List.map token)
      = (pages.map (List.map token)).map (List.take budget) := by
    rw [List.map_map, List.map_map]
    exact List.map_congr_left fun page _ => List.map_take
  rw [softmaxPages, htake, List.foldl_map]
  exact foldl_nest_eq_take (I := fun st => st.m ≠ ⊥) (softmaxStep_finite exp)
    (fun st p hst => softmaxStep_bot hexp hst p.2) ((h.map token).keep budget) hst

/-- **Masked attention is truncated attention.** In exact arithmetic, with any exponential that is 0 at
    `-∞` and 1 at 0: the online softmax with masked scores ends with the maximum, denominator and
    weighted sum of the unmasked loop over the first `tau` tokens of each page, and the contraction
    with masked values ends with the sum over these. -/
theorem maskedLoops_eq_truncated (exp : WithBot 𝕜 → 𝕜) (hexp : ExpLaws exp) (width tau : ℕ)
    (htau : 0 < tau) (pages : List (List (𝕜 × 𝕜))) (hpages : Countable width pages)
    (st : SoftmaxState 𝕜) (hst : st.m ≠ ⊥) (acc : 𝕜) :
    maskedSoftmaxPages exp width (capOf tau) pages st
        = softmaxPages exp (pages.map (List.take tau)) st ∧
      maskedContractPages width (capOf tau) pages acc
        = acc + (pages.map fun page => ((page.take tau).map fun p => p.1 * p.2).sum).sum := by
  rw [capOf_of_pos htau]
  refine ⟨maskedSoftmaxPages_eq hexp hpages hst, ?_⟩
  rw [maskedContractPages_eq hpages, contractPages_eq, List.map_map]
  rfl

end

/-! ## Without a cap -/

/-- `keep ? v : dropped`, in iteration `i`. -/
def maskSelect {α : Type u} (width budget i : ℕ) (dropped v : α) : α :=
  if shedKeep width budget i then v else dropped

/-- **No cap is no mask, short of the largest counter value.** Without an armed control block, beyond the
    table and for a `tau` of 0, whatever the induction variable's width and the trip count: the masks
    select the original values exactly when the variable has fewer than 32 bits or the values are
    already the dropped one in every iteration whose counter is `UINT32_MAX`. -/
theorem mask_identity_iff {α : Type u} (C : WeaveConfig) (R : RtSlots) (m : ByteMem) (task : ℕ)
    (hoff : ¬R.ctrl.Armed ∨ C.maxTasks ≤ task ∨ loadTau m R.ctrl.base task = 0) (width n : ℕ)
    (dropped : α) (v : ℕ → α) :
    (∀ i < n, maskSelect width (emitBudget C R m task) i dropped (v i) = v i) ↔
      width < 32 ∨ ∀ i < n, i % 2 ^ 32 = 2 ^ 32 - 1 → v i = dropped := by
  rw [emitBudget_noCap hoff]
  have hselect : ∀ i, maskSelect width noCap i dropped (v i) = v i ↔
      (shedKeep width noCap i = false → v i = dropped) := by
    intro i
    unfold maskSelect
    cases shedKeep width noCap i with
    | true => simp
    | false => simp [eq_comm]
  simp only [hselect, shedKeep_noCap_eq_false_iff]
  by_cases hw : width < 32
  · simp [hw]
  · simp [hw, not_lt.1 hw]

/-- The real exponential, continued to `-∞`. -/
noncomputable def realExp : WithBot ℝ → ℝ
  | ⊥ => 0
  | (x : ℝ) => Real.exp x

theorem realExp_laws : ExpLaws realExp := ⟨rfl, Real.exp_zero⟩

/-- Two pages of two tokens, one token attended in each. -/
theorem maskedLoops_eq_truncated_pages :
    maskedSoftmaxPages realExp 32 (capOf 1) [[(1, 2), (3, 4)], [(5, 6), (7, 8)]] ⟨(0 : ℝ), 0, 0⟩
        = softmaxPages realExp [[(1, 2)], [(5, 6)]] ⟨(0 : ℝ), 0, 0⟩ ∧
      maskedContractPages 32 (capOf 1) [[(1, 2), (3, 4)], [(5, 6), (7, 8)]] (0 : ℝ)
        = 0 + ((1 * 2 + 0) + ((5 * 6 + 0) + 0)) :=
  maskedLoops_eq_truncated realExp realExp_laws 32 1 Nat.one_pos
    [[(1, 2), (3, 4)], [(5, 6), (7, 8)]] (by simp [Countable]) ⟨(0 : ℝ), 0, 0⟩ WithBot.coe_ne_bot 0

/-- No control block, and a loop of 100 iterations. -/
theorem mask_identity_null :
    ¬RtSlot.Armed {} ∧ ∀ i < 100,
      maskSelect 64 (emitBudget {} { taskOrder := {}, ctrl := {} } ByteMem.zeroed 0) i 0 (i + 1)
        = i + 1 := by
  have hnull : ¬RtSlot.Armed {} := by decide
  refine ⟨hnull, (mask_identity_iff {} { taskOrder := {}, ctrl := {} } ByteMem.zeroed 0
    (.inl hnull) 64 100 0 fun i => i + 1).2 (.inr fun i hi hcount => ?_)⟩
  omega

/-- No control block, and a loop of `2 ^ 32` iterations: the last value is dropped. -/
theorem mask_identity_wrap :
    ¬∀ i < 2 ^ 32,
      maskSelect 64 (emitBudget {} { taskOrder := {}, ctrl := {} } ByteMem.zeroed 0) i 0 1 = 1 := by
  intro h
  have hlast := h (2 ^ 32 - 1) (by decide)
  have hdropped : maskSelect 64
      (emitBudget {} { taskOrder := {}, ctrl := {} } ByteMem.zeroed 0) (2 ^ 32 - 1) 0 1 = 0 := by decide
  rw [hdropped] at hlast
  exact absurd hlast (by decide)

end SchedPass
