import Mathlib.Algebra.Order.Group.Nat
import Mathlib.Data.List.Infix
import Mathlib.Data.Set.Function

set_option autoImplicit false

/-! # Common prefixes and blocks

`commonPrefixLength` is the length of the longest prefix that two lists share (`le_commonPrefixLength_iff`).
It is cut with the lists (`commonPrefixLength_take`) and kept by a map that tells their elements apart
(`commonPrefixLength_map`). A list that is made of blocks of one length, and cut anywhere, has as its full
blocks those ahead of the cut (`fullBlocks_take_flatMap`). -/

universe u v

/-! ## Common prefixes -/

section CommonPrefix

variable {α : Type u} [DecidableEq α]

/-- The length of the longest common prefix. -/
def commonPrefixLength : List α → List α → ℕ
  | a :: l, b :: l' => if a = b then commonPrefixLength l l' + 1 else 0
  | _, _ => 0

theorem le_commonPrefixLength_iff {k : ℕ} {l l' : List α} :
    k ≤ commonPrefixLength l l' ↔ k ≤ l.length ∧ k ≤ l'.length ∧ l.take k = l'.take k := by
  induction l generalizing k l' with
  | nil => simp +contextual [commonPrefixLength]
  | cons a l ih =>
      cases l' with
      | nil => simp +contextual [commonPrefixLength]
      | cons b l' =>
          cases k with
          | zero => simp
          | succ k =>
              rw [commonPrefixLength]
              split
              · next hab => simp [ih, hab]
              · next hab => simp [hab]

theorem take_commonPrefixLength (l l' : List α) :
    l.take (commonPrefixLength l l') = l'.take (commonPrefixLength l l') :=
  (le_commonPrefixLength_iff.1 le_rfl).2.2

/-- Cut lists share what is left of the prefix. -/
theorem commonPrefixLength_take (l l' : List α) {m n : ℕ} (hm : m ≤ l.length) (hn : n ≤ l'.length) :
    commonPrefixLength (l.take m) (l'.take n) = min m (min n (commonPrefixLength l l')) := by
  refine eq_of_forall_le_iff fun k => ?_
  rw [le_commonPrefixLength_iff, le_min_iff, le_min_iff, le_commonPrefixLength_iff, List.length_take,
    List.length_take, min_eq_left hm, min_eq_left hn, List.take_take, List.take_take]
  constructor
  · rintro ⟨hkm, hkn, htake⟩
    rw [min_eq_left hkm, min_eq_left hkn] at htake
    exact ⟨hkm, hkn, hkm.trans hm, hkn.trans hn, htake⟩
  · rintro ⟨hkm, hkn, -, -, htake⟩
    rw [min_eq_left hkm, min_eq_left hkn]
    exact ⟨hkm, hkn, htake⟩

/-- A map that tells the elements apart keeps the common prefix. -/
theorem commonPrefixLength_map {β : Type v} [DecidableEq β] {f : α → β} {s : Set α} (hf : s.InjOn f)
    {l l' : List α} (hl : ∀ a ∈ l, a ∈ s) (hl' : ∀ a ∈ l', a ∈ s) :
    commonPrefixLength (l.map f) (l'.map f) = commonPrefixLength l l' := by
  induction l generalizing l' with
  | nil => rfl
  | cons a l ih =>
      cases l' with
      | nil => rfl
      | cons b l' =>
          obtain ⟨ha, hl⟩ := List.forall_mem_cons.1 hl
          obtain ⟨hb, hl'⟩ := List.forall_mem_cons.1 hl'
          rw [List.map_cons, List.map_cons, commonPrefixLength, commonPrefixLength, ih hl hl']
          by_cases hab : a = b
          · rw [if_pos hab, if_pos (congrArg f hab)]
          · rw [if_neg hab, if_neg fun h => hab (hf ha hb h)]

end CommonPrefix

/-! ## Blocks -/

section Blocks

variable {α : Type u} {β : Type v}

/-- The blocks of `k` elements that fit. -/
def fullBlocks (k : ℕ) (l : List β) : List (List β) :=
  (List.range (l.length / k)).map fun i => (l.drop (i * k)).take k

variable {k : ℕ} {f : α → List β}

theorem length_flatMap_blocks (l : List α) (hf : ∀ a ∈ l, (f a).length = k) :
    (l.flatMap f).length = k * l.length := by
  induction l with
  | nil => rfl
  | cons a l ih =>
      obtain ⟨ha, hl⟩ := List.forall_mem_cons.1 hf
      rw [List.flatMap_cons, List.length_append, ha, ih hl, List.length_cons, Nat.mul_succ, Nat.add_comm]

/-- Blocks ahead of a place. -/
theorem take_mul_flatMap (l : List α) (hf : ∀ a ∈ l, (f a).length = k) (i : ℕ) :
    (l.flatMap f).take (i * k) = (l.take i).flatMap f := by
  induction l generalizing i with
  | nil => simp
  | cons a l ih =>
      obtain ⟨ha, hl⟩ := List.forall_mem_cons.1 hf
      cases i with
      | zero => simp
      | succ i =>
          rw [List.flatMap_cons, List.take_succ_cons, List.flatMap_cons, ← ih hl, Nat.succ_mul, Nat.add_comm,
            ← ha, List.take_length_add_append]

theorem drop_mul_flatMap (l : List α) (hf : ∀ a ∈ l, (f a).length = k) (i : ℕ) :
    (l.flatMap f).drop (i * k) = (l.drop i).flatMap f := by
  induction l generalizing i with
  | nil => simp
  | cons a l ih =>
      obtain ⟨ha, hl⟩ := List.forall_mem_cons.1 hf
      cases i with
      | zero => simp
      | succ i =>
          rw [List.flatMap_cons, List.drop_succ_cons, ← ih hl, Nat.succ_mul, Nat.add_comm, ← ha,
            List.drop_length_add_append]

/-- Lists of blocks agree as far as what the blocks are made from. -/
theorem take_flatMap_eq [DecidableEq α] {l l' : List α} (hf : ∀ a ∈ l, (f a).length = k)
    (hf' : ∀ a ∈ l', (f a).length = k) {m : ℕ} (hm : m ≤ commonPrefixLength l l' * k) :
    (l.flatMap f).take m = (l'.flatMap f).take m := by
  have hblocks : (l.flatMap f).take (commonPrefixLength l l' * k)
      = (l'.flatMap f).take (commonPrefixLength l l' * k) := by
    rw [take_mul_flatMap l hf, take_mul_flatMap l' hf', take_commonPrefixLength]
  have htake := congrArg (List.take m) hblocks
  rwa [List.take_take, List.take_take, min_eq_left hm] at htake

/-- **The full blocks of a cut list of blocks** are the blocks ahead of the cut. -/
theorem fullBlocks_take_flatMap (hk : 0 < k) (l : List α) (hf : ∀ a ∈ l, (f a).length = k) {n : ℕ}
    (hn : n ≤ k * l.length) :
    fullBlocks k ((l.flatMap f).take n) = (l.take (n / k)).map f := by
  have hblocks : n / k ≤ l.length := Nat.div_le_of_le_mul hn
  have hlen : ((l.flatMap f).take n).length = n := by
    rw [List.length_take, length_flatMap_blocks l hf, min_eq_left hn]
  refine List.ext_getElem (by simp [fullBlocks, hlen, hblocks]) fun i h₁ h₂ => ?_
  have hi : i < n / k := by simpa [fullBlocks, hlen] using h₁
  have hil : i < l.length := hi.trans_le hblocks
  have hfit : i * k + k ≤ n := by
    have := (Nat.le_div_iff_mul_le hk).1 hi
    rwa [Nat.succ_mul] at this
  have hblock : (f l[i]).length = k := hf _ (List.getElem_mem hil)
  simp only [fullBlocks, List.getElem_map, List.getElem_range, List.getElem_take]
  rw [List.drop_take, List.take_take, min_eq_left (by omega), drop_mul_flatMap l hf,
    List.drop_eq_getElem_cons hil, List.flatMap_cons]
  exact List.take_left' hblock

end Blocks
