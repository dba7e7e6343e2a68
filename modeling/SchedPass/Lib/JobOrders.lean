import Mathlib.Algebra.BigOperators.Ring.List
import Mathlib.Algebra.Order.BigOperators.Group.List
import Mathlib.Algebra.Order.Ring.Defs
import Mathlib.Tactic.Linarith
import Mathlib.Tactic.Ring

set_option autoImplicit false

/-! # Orders of jobs

Jobs run one after the other, in the order of a list of their durations. Their total completion time is
least for the ascending order and greatest for the descending one, and no other order reaches either
(`totalCompletion_ascending`, `totalCompletion_descending`). On several workers an order is the list that
greedy scheduling works off, each job going to the least loaded worker. -/

universe u

variable {K : Type u}

/-! ## Total completion time -/

section

variable [CommRing K]

/-- The sum of the completion times: a job delays itself and all jobs behind it. -/
def totalCompletion : List K → K
  | [] => 0
  | t :: ts => (ts.length + 1) * t + totalCompletion ts

/-- The running sum of the prefix sums, from an accumulated `s` at the time `c`. -/
theorem foldl_completion (ts : List K) (s c : K) :
    ts.foldl (fun sc t => (sc.1 + (sc.2 + t), sc.2 + t)) (s, c)
      = (s + ts.length * c + totalCompletion ts, c + ts.sum) := by
  induction ts generalizing s c with
  | nil => simp [totalCompletion]
  | cons t ts ih =>
      rw [List.foldl_cons, ih, totalCompletion, List.length_cons, List.sum_cons, Nat.cast_succ]
      refine Prod.ext ?_ (add_assoc c t ts.sum)
      ring

theorem totalCompletion_concat (ts : List K) (t : K) :
    totalCompletion (ts ++ [t]) = totalCompletion ts + ts.sum + t := by
  induction ts with
  | nil => simp [totalCompletion]
  | cons t' ts ih =>
      rw [List.cons_append, totalCompletion, ih, totalCompletion, List.length_append, List.sum_cons,
        List.length_singleton, Nat.cast_succ]
      ring

theorem totalCompletion_reverse (ts : List K) :
    totalCompletion ts.reverse = (ts.length + 1) * ts.sum - totalCompletion ts := by
  induction ts with
  | nil => simp [totalCompletion]
  | cons t ts ih =>
      rw [List.reverse_cons, totalCompletion_concat, ih, totalCompletion, List.length_cons,
        List.sum_cons, List.sum_reverse, Nat.cast_succ]
      ring

/-- A job moved to the front exchanges its delay with each job it passes. -/
theorem totalCompletion_move (x : K) (ts ts' : List K) :
    totalCompletion (ts ++ x :: ts')
      = totalCompletion (x :: (ts ++ ts')) + (ts.map fun y => y - x).sum := by
  induction ts with
  | nil => simp
  | cons y ts ih =>
      simp only [List.cons_append, totalCompletion, List.map_cons, List.sum_cons, List.length_cons,
        List.length_append, Nat.cast_succ, Nat.cast_add] at ih ⊢
      rw [ih]
      ring

end

section

variable [CommRing K] [LinearOrder K] [IsStrictOrderedRing K] {l l' : List K}

/-- **The ascending order completes first, and no other order as early.** -/
theorem totalCompletion_ascending (hl : l.Pairwise (· ≤ ·)) (h : l.Perm l') :
    totalCompletion l ≤ totalCompletion l' ∧ (totalCompletion l' = totalCompletion l → l' = l) := by
  induction l generalizing l' with
  | nil => simp [List.nil_perm.1 h]
  | cons x l ih =>
      obtain ⟨hx, hl⟩ := List.pairwise_cons.1 hl
      -- the least job stands somewhere in `l'`, behind jobs that it would only shorten
      obtain ⟨ts, ts', rfl⟩ := List.append_of_mem (h.subset (List.mem_cons_self ..))
      have hrest : l.Perm (ts ++ ts') := (h.trans List.perm_middle).cons_inv
      obtain ⟨hle, heq⟩ := ih hl hrest
      have hnonneg : ∀ z ∈ ts.map fun y => y - x, 0 ≤ z := by
        intro z hz
        obtain ⟨y, hy, rfl⟩ := List.mem_map.1 hz
        exact sub_nonneg.2 (hx y (hrest.symm.subset (List.mem_append_left ts' hy)))
      have hsum := List.sum_nonneg hnonneg
      have hlen := hrest.length_eq
      rw [totalCompletion_move, totalCompletion, totalCompletion, ← hlen]
      refine ⟨by linarith, fun htotal => ?_⟩
      have hsum0 : (ts.map fun y => y - x).sum = 0 := by linarith
      have hts : ∀ y ∈ ts, y = x := by
        intro y hy
        have hmem : y - x ∈ ts.map fun y => y - x := List.mem_map_of_mem hy
        exact sub_eq_zero.1 (List.all_zero_of_le_zero_le_of_sum_eq_zero hnonneg hsum0 hmem)
      rw [← heq (by linarith), List.eq_replicate_of_mem hts, ← List.cons_append,
        ← List.replicate_succ, List.replicate_succ', List.append_assoc, List.singleton_append]

/-- The descending order completes last, and no other order as late. -/
theorem totalCompletion_descending (hl : l.Pairwise (· ≥ ·)) (h : l.Perm l') :
    totalCompletion l' ≤ totalCompletion l ∧ (totalCompletion l' = totalCompletion l → l' = l) := by
  have hrev : l.reverse.Perm l'.reverse := (List.reverse_perm l).trans (h.trans (List.reverse_perm l').symm)
  obtain ⟨hle, heq⟩ := totalCompletion_ascending (List.pairwise_reverse.2 hl) hrev
  rw [totalCompletion_reverse, totalCompletion_reverse, h.sum_eq, h.length_eq] at hle heq
  refine ⟨by linarith, fun htotal => List.reverse_injective (heq (by rw [htotal]))⟩

end

/-! ## List scheduling -/

section

variable [Zero K] [Add K] [LinearOrder K]

/-- A job goes to the first of the least loaded workers. -/
def assignLeast (t : K) : List K → List K
  | [] => []
  | load :: loads =>
      if ∀ load' ∈ loads, load ≤ load' then (load + t) :: loads else load :: assignLeast t loads

/-- The loads of `m` workers after the jobs of the list. -/
def listSchedule (m : ℕ) (ts : List K) : List K :=
  ts.foldl (fun loads t => assignLeast t loads) (List.replicate m 0)

/-- When the last worker is done. -/
def makespan (m : ℕ) (ts : List K) : K := (listSchedule m ts).foldr max 0

theorem makespan_nonneg (m : ℕ) (ts : List K) : 0 ≤ makespan m ts := by
  unfold makespan
  induction listSchedule m ts with
  | nil => exact le_rfl
  | cons load loads ih => exact le_max_of_le_right ih

end
