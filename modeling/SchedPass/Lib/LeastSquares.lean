import Mathlib.Algebra.BigOperators.Ring.List
import Mathlib.Algebra.Order.BigOperators.Group.List
import Mathlib.Algebra.Order.Field.Basic
import Mathlib.Tactic.LinearCombination
import Mathlib.Tactic.Ring

set_option autoImplicit false

/-! # Straight lines through data

The square error of a line over a list of points, and the spread `n * ∑ x ^ 2 - (∑ x) ^ 2` of a list of
numbers, which is the sum of the squared differences of all pairs. A line that satisfies the normal
equations has the least error of all lines, and where two points have different abscissas no other line
has that error. -/

universe u

variable {K : Type u}

theorem two_le_length_of_ne {α : Type u} {l : List α} {a b : α} (ha : a ∈ l) (hb : b ∈ l)
    (hne : a ≠ b) : 2 ≤ l.length := by
  rcases l with - | ⟨c, - | ⟨d, l⟩⟩
  · cases ha
  · rw [List.mem_singleton.1 ha, List.mem_singleton.1 hb] at hne
    exact absurd rfl hne
  · simp

/-! ## The spread of a list -/

section

variable [CommRing K]

def spread (xs : List K) : K := xs.length * (xs.map (· ^ 2)).sum - xs.sum ^ 2

@[simp] theorem spread_nil : spread ([] : List K) = 0 := by simp [spread]

theorem sum_sq_sub (x : K) (xs : List K) :
    (xs.map fun y => (x - y) ^ 2).sum
      = xs.length * x ^ 2 - 2 * x * xs.sum + (xs.map (· ^ 2)).sum := by
  induction xs with
  | nil => simp
  | cons y ys ih =>
      simp only [List.map_cons, List.sum_cons, ih, List.length_cons, Nat.cast_succ]
      ring

/-- A number adds its squared differences to all others. -/
theorem spread_cons (x : K) (xs : List K) :
    spread (x :: xs) = spread xs + (xs.map fun y => (x - y) ^ 2).sum := by
  rw [sum_sq_sub]
  simp only [spread, List.map_cons, List.sum_cons, List.length_cons, Nat.cast_succ]
  ring

end

/-! ## The error of a line -/

section

variable [CommRing K]

/-- The sum of the squared vertical distances of the points from `line.1 * x + line.2`. -/
def sumSqErr (data : List (K × K)) (line : K × K) : K :=
  (data.map fun p => (p.2 - (line.1 * p.1 + line.2)) ^ 2).sum

/-- The line's coefficients make the error's two derivatives vanish. -/
structure NormalEquations (data : List (K × K)) (line : K × K) : Prop where
  intercept : line.1 * (data.map Prod.fst).sum + data.length * line.2 = (data.map Prod.snd).sum
  slope : line.1 * (data.map fun p => p.1 ^ 2).sum + line.2 * (data.map Prod.fst).sum
    = (data.map fun p => p.1 * p.2).sum

theorem sumSqErr_eq (data : List (K × K)) (line : K × K) :
    sumSqErr data line = (data.map fun p => p.2 ^ 2).sum
      - 2 * (line.1 * (data.map fun p => p.1 * p.2).sum + line.2 * (data.map Prod.snd).sum)
      + (line.1 ^ 2 * (data.map fun p => p.1 ^ 2).sum + 2 * line.1 * line.2 * (data.map Prod.fst).sum
        + data.length * line.2 ^ 2) := by
  unfold sumSqErr
  induction data with
  | nil => simp
  | cons p data ih =>
      simp only [List.map_cons, List.sum_cons, ih, List.length_cons, Nat.cast_succ]
      ring

/-- The gap between two lines over the points. -/
def lineGap (data : List (K × K)) (line line' : K × K) : K :=
  (data.map fun p => ((line'.1 - line.1) * p.1 + (line'.2 - line.2)) ^ 2).sum

theorem lineGap_eq (data : List (K × K)) (line line' : K × K) :
    lineGap data line line' = (line'.1 - line.1) ^ 2 * (data.map fun p => p.1 ^ 2).sum
      + 2 * (line'.1 - line.1) * (line'.2 - line.2) * (data.map Prod.fst).sum
      + data.length * (line'.2 - line.2) ^ 2 := by
  unfold lineGap
  induction data with
  | nil => simp
  | cons p data ih =>
      simp only [List.map_cons, List.sum_cons, ih, List.length_cons, Nat.cast_succ]
      ring

/-- **Pythagoras**: the error of any line is that of a line with the normal equations and the gap
    between the two. -/
theorem NormalEquations.sumSqErr_eq_add {data : List (K × K)} {line : K × K}
    (h : NormalEquations data line) (line' : K × K) :
    sumSqErr data line' = sumSqErr data line + lineGap data line line' := by
  rw [sumSqErr_eq, sumSqErr_eq, lineGap_eq]
  linear_combination 2 * (line'.1 - line.1) * h.slope + 2 * (line'.2 - line.2) * h.intercept

end

/-! ## Order -/

section

variable [Field K] [LinearOrder K] [IsStrictOrderedRing K]

theorem sum_sq_nonneg {α : Type u} (f : α → K) (l : List α) : 0 ≤ (l.map fun a => f a ^ 2).sum :=
  List.sum_nonneg fun y hy => by
    obtain ⟨a, -, rfl⟩ := List.mem_map.1 hy
    exact sq_nonneg (f a)

/-- A sum of squares vanishes with its terms. -/
theorem sum_sq_eq_zero_iff {α : Type u} (f : α → K) (l : List α) :
    (l.map fun a => f a ^ 2).sum = 0 ↔ ∀ a ∈ l, f a = 0 := by
  induction l with
  | nil => simp
  | cons a l ih =>
      have hsq := sq_nonneg (f a)
      have hsum := sum_sq_nonneg f l
      rw [List.map_cons, List.sum_cons, List.forall_mem_cons, ← ih,
        add_eq_zero_iff_of_nonneg hsq hsum, pow_eq_zero_iff two_ne_zero]

theorem spread_nonneg (xs : List K) : 0 ≤ spread xs := by
  induction xs with
  | nil => simp
  | cons x xs ih =>
      rw [spread_cons]
      exact add_nonneg ih (sum_sq_nonneg (x - ·) xs)

/-- **The spread vanishes exactly when all numbers are equal.** -/
theorem spread_eq_zero_iff (xs : List K) : spread xs = 0 ↔ ∀ x ∈ xs, ∀ y ∈ xs, x = y := by
  induction xs with
  | nil => simp
  | cons x xs ih =>
      rw [spread_cons, add_eq_zero_iff_of_nonneg (spread_nonneg xs) (sum_sq_nonneg (x - ·) xs), ih,
        sum_sq_eq_zero_iff (x - ·)]
      constructor
      · rintro ⟨hall, hx⟩ a ha b hb
        have heq : ∀ c ∈ x :: xs, c = x := by
          intro c hc
          rcases List.mem_cons.1 hc with rfl | hc
          · rfl
          · exact (sub_eq_zero.1 (hx c hc)).symm
        rw [heq a ha, heq b hb]
      · intro h
        refine ⟨fun a ha b hb => h a (List.mem_cons_of_mem x ha) b (List.mem_cons_of_mem x hb),
          fun y hy => sub_eq_zero.2 (h x (List.mem_cons_self ..) y (List.mem_cons_of_mem x hy))⟩

/-- **A line with the normal equations has the least error.** -/
theorem NormalEquations.le {data : List (K × K)} {line : K × K} (h : NormalEquations data line)
    (line' : K × K) : sumSqErr data line ≤ sumSqErr data line' := by
  rw [h.sumSqErr_eq_add line']
  exact le_add_of_nonneg_right (sum_sq_nonneg _ data)

/-- Over two abscissas no other line has the least error. -/
theorem NormalEquations.unique {data : List (K × K)} {line line' : K × K}
    (h : NormalEquations data line) {p q : K × K} (hp : p ∈ data) (hq : q ∈ data) (hne : p.1 ≠ q.1)
    (heq : sumSqErr data line' = sumSqErr data line) : line' = line := by
  rw [h.sumSqErr_eq_add line', add_eq_left, lineGap, sum_sq_eq_zero_iff] at heq
  have hpz := heq p hp
  have hqz := heq q hq
  -- the difference of the two lines vanishes at both abscissas
  have hslope : line'.1 - line.1 = 0 := by
    have hprod : (line'.1 - line.1) * (p.1 - q.1) = 0 := by linear_combination hpz - hqz
    exact (mul_eq_zero.1 hprod).resolve_right (sub_ne_zero.2 hne)
  have hintercept : line'.2 - line.2 = 0 := by
    rw [hslope] at hpz
    linear_combination hpz
  exact Prod.ext (sub_eq_zero.1 hslope) (sub_eq_zero.1 hintercept)

end
