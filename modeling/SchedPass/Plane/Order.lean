import Mathlib.Data.List.Flatten
import Mathlib.Data.List.Perm.Basic
import Mathlib.Data.List.Sort
import Mathlib.Tactic.Ring

set_option autoImplicit false

/-! # The orders the plane installs (`region_order`, `_grouped_lpt`)

What torch computes is a parameter: `float` is `.float()` of one cost, `blockSum` is `.sum(1)` of one row
(a float32 sum, in torch's own order of additions) and `argsort` is `torch.argsort(…, descending=True)`.
Whatever permutation the sort returns, the order is a permutation of the tiles. -/

namespace SchedPass

variable {C K : Type} [Zero K]

/-- `_grouped_lpt`: chunks of `block` adjacent tiles by descending total cost, in index order inside
    a chunk; plain LPT when a chunk is one tile or everything. -/
def groupedLpt (blockSum : List K → K) (argsort : List K → List ℕ) (c : List K) (block : ℤ) : List ℕ :=
  let n := c.length
  if block ≤ 1 ∨ (n : ℤ) ≤ block then
    argsort c
  else
    let block := block.toNat
    let nb := (n + block - 1) / block
    let pad := nb * block - n
    let cc := c ++ List.replicate pad 0
    let bcost := (List.range nb).map fun k => blockSum ((cc.drop (k * block)).take block)
    let border := argsort bcost
    let order := border.flatMap fun k => (List.range block).map fun j => k * block + j
    order.filter (· < n)

/-- The elements of two lists in turn, as `pre[0::2]` and `pre[1::2]`. -/
def interleave {α : Type} : List α → List α → List α
  | [], bs => bs
  | a :: as, [] => a :: as
  | a :: as, b :: bs => a :: b :: interleave as bs

/-- `region_order`: grouped LPT unless a suffix stays claimable (`0 < R < n`); then the prefix
    alternates the heaviest and the lightest tiles and the suffix holds the rest, heaviest first. -/
def regionOrder (float : C → K) (blockSum : List K → K) (argsort : List K → List ℕ) (block : ℤ)
    (cost : List C) (R : ℤ) : List ℕ :=
  let c := cost.map float
  let n := c.length
  if R ≤ 0 ∨ (n : ℤ) ≤ R then
    groupedLpt blockSum argsort c block
  else
    let R := R.toNat
    let lpt := argsort c
    let nh := (R + 1) / 2
    let nl := R - nh
    let pre := interleave (lpt.take nh) (lpt.drop (n - nl)).reverse
    let suf := (lpt.take (n - nl)).drop nh
    pre ++ suf

/-! ## Permutations -/

/-- What torch documents of `argsort`: some permutation of the indices. -/
def SortsIndices (argsort : List K → List ℕ) : Prop :=
  ∀ c, (argsort c).Perm (List.range c.length)

/-- A stable descending sort of indices. -/
def argsortDesc (c : List ℕ) : List ℕ :=
  (List.range c.length).insertionSort fun i j => c.getD j 0 ≤ c.getD i 0

theorem sortsIndices_argsortDesc : SortsIndices argsortDesc := fun _ => List.perm_insertionSort _ _

theorem range_flatMap_chunks (nb block : ℕ) :
    (List.range nb).flatMap (fun k => (List.range block).map fun j => k * block + j)
      = List.range (nb * block) := by
  induction nb with
  | zero => simp
  | succ nb ih =>
      rw [List.range_succ, List.flatMap_append, ih, Nat.succ_mul, List.range_add]
      simp

theorem filter_range_lt {n m : ℕ} (h : n ≤ m) : (List.range m).filter (· < n) = List.range n := by
  obtain ⟨k, rfl⟩ := Nat.exists_eq_add_of_le h
  rw [List.range_add, List.filter_append]
  have hlow : (List.range n).filter (· < n) = List.range n :=
    List.filter_eq_self.2 fun i hi => by simpa using hi
  have hhigh : ((List.range k).map (n + ·)).filter (· < n) = [] :=
    List.filter_eq_nil_iff.2 fun i hi => by
      obtain ⟨j, -, rfl⟩ := List.mem_map.1 hi
      simp
  rw [hlow, hhigh, List.append_nil]

theorem groupedLpt_perm {argsort : List K → List ℕ} (h : SortsIndices argsort) (blockSum : List K → K)
    (c : List K) (block : ℤ) : (groupedLpt blockSum argsort c block).Perm (List.range c.length) := by
  unfold groupedLpt
  dsimp only
  split
  · exact h c
  · next hsplit =>
      obtain ⟨b, rfl⟩ := Int.eq_ofNat_of_zero_le (show 0 ≤ block by omega)
      rw [Int.toNat_natCast]
      have hcover : c.length ≤ (c.length + b - 1) / b * b := by
        have hdiv := Nat.lt_div_mul_add (a := c.length + b - 1) (b := b) (by omega)
        omega
      have hborder := h ((List.range ((c.length + b - 1) / b)).map fun k =>
        blockSum (((c ++ List.replicate ((c.length + b - 1) / b * b - c.length) 0).drop (k * b)).take b))
      rw [List.length_map, List.length_range] at hborder
      have hchunks := hborder.flatMap_right fun k => (List.range b).map fun j => k * b + j
      rw [range_flatMap_chunks] at hchunks
      rw [← filter_range_lt hcover]
      exact hchunks.filter _

theorem interleave_perm {α : Type} (as bs : List α) : (interleave as bs).Perm (as ++ bs) := by
  induction as, bs using interleave.induct with
  | case1 bs => exact .refl _
  | case2 a as =>
      rw [interleave, List.append_nil]
  | case3 a as b bs ih =>
      rw [interleave, List.cons_append]
      exact ((ih.cons b).trans List.perm_middle.symm).cons a

/-- The two halves of the prefix and the suffix are the sorted tiles. -/
theorem regionOrder_split_perm {argsort : List K → List ℕ} (float : C → K) (blockSum : List K → K)
    (block : ℤ) {cost : List C} {R : ℤ} (h : (argsort (cost.map float)).Perm (List.range cost.length))
    (hR : ¬(R ≤ 0 ∨ (cost.length : ℤ) ≤ R)) :
    (regionOrder float blockSum argsort block cost R).Perm (List.range cost.length) := by
  obtain ⟨r, rfl⟩ := Int.eq_ofNat_of_zero_le (show 0 ≤ R by omega)
  simp only [regionOrder, List.length_map, if_neg hR, Int.toNat_natCast]
  generalize argsort (cost.map float) = lpt at h ⊢
  generalize hnl : r - (r + 1) / 2 = nl
  have hle : (r + 1) / 2 ≤ cost.length - nl := by omega
  have hsplit : lpt = lpt.take ((r + 1) / 2) ++ ((lpt.take (cost.length - nl)).drop ((r + 1) / 2)
      ++ lpt.drop (cost.length - nl)) := by
    have hfirst := List.take_append_drop ((r + 1) / 2) (lpt.take (cost.length - nl))
    rw [List.take_take, min_eq_left hle] at hfirst
    rw [← List.append_assoc, hfirst, List.take_append_drop]
  refine List.Perm.trans ?_ h
  conv_rhs => rw [hsplit]
  refine ((interleave_perm _ _).append_right _).trans ?_
  rw [List.append_assoc]
  refine List.Perm.append_left _ (List.perm_append_comm.trans ?_)
  exact List.Perm.append_left _ (List.reverse_perm _)

/-- **Every installed order is a permutation of the tiles.** -/
theorem regionOrder_perm {argsort : List K → List ℕ} (h : SortsIndices argsort) (float : C → K)
    (blockSum : List K → K) (block : ℤ) (cost : List C) (R : ℤ) :
    (regionOrder float blockSum argsort block cost R).Perm (List.range cost.length) := by
  have hlength : (cost.map float).length = cost.length := List.length_map float
  by_cases hR : R ≤ 0 ∨ (cost.length : ℤ) ≤ R
  · simp only [regionOrder, hlength, if_pos hR]
    exact hlength ▸ groupedLpt_perm h blockSum (cost.map float) block
  · exact regionOrder_split_perm float blockSum block (hlength ▸ h (cost.map float)) hR

end SchedPass
