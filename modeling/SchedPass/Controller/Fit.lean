import Mathlib.Tactic.NormNum
import SchedPass.Lib.LeastSquares

set_option autoImplicit false

/-! # The incremental fit (`_Fit`)

The controller fits `t = alpha * x + beta` to the measurements of a kernel family through five running
sums. In exact arithmetic the sums are those of the whole history, whose order is lost, and the
coefficients are the ones of the least-squares line (`fit_is_least_squares`). With all lengths equal the
denominator vanishes and the fit falls back to a proportional one. -/

namespace SchedPass

variable {K : Type}

/-! ## The running sums -/

structure Fit (K : Type) where
  n : ℕ
  sx : K
  sy : K
  sxx : K
  sxy : K
  deriving DecidableEq

namespace Fit

variable [Field K]

/-- `_Fit()`. -/
def init : Fit K := { n := 0, sx := 0, sy := 0, sxx := 0, sxy := 0 }

def add (f : Fit K) (x y : K) : Fit K where
  n := f.n + 1
  sx := f.sx + x
  sy := f.sy + y
  sxx := f.sxx + x * x
  sxy := f.sxy + x * y

/-- `(alpha, beta)`; degenerate data falls back to proportional. -/
def coeffs [LinearOrder K] (f : Fit K) : K × K :=
  let proportional := if 0 < f.sx then (f.sy / f.sx, 0) else (1, 0)
  if f.n < 2 then proportional
  else
    let den := f.n * f.sxx - f.sx * f.sx
    if den ≤ 0 then proportional
    else
      let alpha := (f.n * f.sxy - f.sx * f.sy) / den
      (alpha, (f.sy - alpha * f.sx) / f.n)

/-- The fit after a sequence of observations. -/
def ofHistory (obs : List (K × K)) : Fit K := obs.foldl (fun f p => f.add p.1 p.2) init

/-! ## The sums of a history -/

theorem add_right_comm (f : Fit K) (x y x' y' : K) :
    (f.add x y).add x' y' = (f.add x' y').add x y := by
  simp only [add, mk.injEq, true_and]
  refine ⟨?_, ?_, ?_, ?_⟩ <;> ring

theorem ofHistory_perm {obs obs' : List (K × K)} (h : obs.Perm obs') :
    ofHistory obs = ofHistory obs' :=
  h.foldl_eq' (fun p _ q _ f => add_right_comm f p.1 p.2 q.1 q.2) init

theorem foldl_add (obs : List (K × K)) (f : Fit K) :
    obs.foldl (fun f p => f.add p.1 p.2) f =
      { n := f.n + obs.length
        sx := f.sx + (obs.map Prod.fst).sum
        sy := f.sy + (obs.map Prod.snd).sum
        sxx := f.sxx + (obs.map fun p => p.1 ^ 2).sum
        sxy := f.sxy + (obs.map fun p => p.1 * p.2).sum } := by
  induction obs generalizing f with
  | nil => simp
  | cons p obs ih =>
      rw [List.foldl_cons, ih]
      simp only [add, List.length_cons, List.map_cons, List.sum_cons, mk.injEq]
      refine ⟨by omega, ?_, ?_, ?_, ?_⟩ <;> ring

/-- **The five sums are those of the history.** -/
theorem ofHistory_eq (obs : List (K × K)) :
    ofHistory obs =
      { n := obs.length
        sx := (obs.map Prod.fst).sum
        sy := (obs.map Prod.snd).sum
        sxx := (obs.map fun p => p.1 ^ 2).sum
        sxy := (obs.map fun p => p.1 * p.2).sum } := by
  rw [ofHistory, foldl_add]
  simp [init]

/-- The denominator is the spread of the lengths. -/
theorem den_ofHistory (obs : List (K × K)) :
    ((ofHistory obs).n * (ofHistory obs).sxx - (ofHistory obs).sx * (ofHistory obs).sx : K)
      = spread (obs.map Prod.fst) := by
  rw [ofHistory_eq, spread, List.length_map, List.map_map, sq (obs.map Prod.fst).sum]
  rfl

/-! ## The least-squares line -/

variable [LinearOrder K] [IsStrictOrderedRing K]

theorem spread_pos_of_ne {obs : List (K × K)} {p q : K × K} (hp : p ∈ obs) (hq : q ∈ obs)
    (hne : p.1 ≠ q.1) : 0 < spread (obs.map Prod.fst) := by
  refine lt_of_le_of_ne (spread_nonneg _) fun hzero => hne ?_
  exact (spread_eq_zero_iff _).1 hzero.symm p.1 (List.mem_map_of_mem hp) q.1 (List.mem_map_of_mem hq)

/-- Over two lengths the coefficients satisfy the normal equations. -/
theorem coeffs_normalEquations {obs : List (K × K)} {p q : K × K} (hp : p ∈ obs) (hq : q ∈ obs)
    (hne : p.1 ≠ q.1) : NormalEquations obs (ofHistory obs).coeffs := by
  have hlen := two_le_length_of_ne hp hq (ne_of_apply_ne Prod.fst hne)
  have hden := spread_pos_of_ne hp hq hne
  rw [← den_ofHistory] at hden
  rw [ofHistory_eq] at hden ⊢
  simp only [coeffs, if_neg (not_lt.2 hlen), if_neg (not_le.2 hden)]
  have hn : (obs.length : K) ≠ 0 := Nat.cast_ne_zero.2 (by omega)
  have halpha := div_mul_cancel₀
    (obs.length * (obs.map fun p => p.1 * p.2).sum - (obs.map Prod.fst).sum * (obs.map Prod.snd).sum)
    hden.ne'
  generalize (_ / _ : K) = alpha at halpha ⊢
  have hbeta := mul_div_cancel₀ ((obs.map Prod.snd).sum - alpha * (obs.map Prod.fst).sum) hn
  generalize (_ / _ : K) = beta at hbeta ⊢
  constructor
  · linear_combination hbeta
  · refine mul_left_cancel₀ hn ?_
    linear_combination halpha + (obs.map Prod.fst).sum * hbeta

/-- **The incremental fit is ordinary least squares.** In exact arithmetic, for every sequence of
    observations: the coefficients do not depend on its order, the denominator is never negative and
    vanishes exactly when all lengths are equal, and over two distinct lengths the coefficients are
    those of the one line with the least sum of squared errors. -/
theorem fit_is_least_squares (obs : List (K × K)) :
    (∀ obs', obs.Perm obs' → (ofHistory obs').coeffs = (ofHistory obs).coeffs) ∧
      0 ≤ (ofHistory obs).n * (ofHistory obs).sxx - (ofHistory obs).sx ^ 2 ∧
      ((ofHistory obs).n * (ofHistory obs).sxx - (ofHistory obs).sx ^ 2 = 0 ↔
        ∀ p ∈ obs, ∀ q ∈ obs, p.1 = q.1) ∧
      ((∃ p ∈ obs, ∃ q ∈ obs, p.1 ≠ q.1) → ∀ line,
        sumSqErr obs (ofHistory obs).coeffs ≤ sumSqErr obs line ∧
          (sumSqErr obs line = sumSqErr obs (ofHistory obs).coeffs →
            line = (ofHistory obs).coeffs)) := by
  rw [sq, den_ofHistory]
  refine ⟨fun obs' h => ?_, spread_nonneg _, ?_, ?_⟩
  · rw [ofHistory_perm h]
  · rw [spread_eq_zero_iff]
    simp only [List.forall_mem_map]
  · rintro ⟨p, hp, q, hq, hne⟩ line
    have hnormal := coeffs_normalEquations hp hq hne
    exact ⟨hnormal.le line, hnormal.unique hp hq hne⟩

/-- Three observations at two lengths. -/
theorem fit_is_least_squares_three :
    (∃ p ∈ [((1 : ℚ), (3 : ℚ)), (1, 5), (2, 6)], ∃ q ∈ [((1 : ℚ), (3 : ℚ)), (1, 5), (2, 6)],
        p.1 ≠ q.1) ∧
      ∀ line, sumSqErr [((1 : ℚ), (3 : ℚ)), (1, 5), (2, 6)] (2, 2)
        ≤ sumSqErr [((1 : ℚ), (3 : ℚ)), (1, 5), (2, 6)] line := by
  have htwo : ∃ p ∈ [((1 : ℚ), (3 : ℚ)), (1, 5), (2, 6)], ∃ q ∈ [((1 : ℚ), (3 : ℚ)), (1, 5), (2, 6)],
      p.1 ≠ q.1 := ⟨(1, 3), by simp, (2, 6), by simp, by norm_num⟩
  have hcoeffs : (ofHistory [((1 : ℚ), (3 : ℚ)), (1, 5), (2, 6)]).coeffs = (2, 2) := by decide +kernel
  refine ⟨htwo, fun line => ?_⟩
  have hleast := (fit_is_least_squares [((1 : ℚ), (3 : ℚ)), (1, 5), (2, 6)]).2.2.2 htwo line
  rw [hcoeffs] at hleast
  exact hleast.1

end Fit

end SchedPass
