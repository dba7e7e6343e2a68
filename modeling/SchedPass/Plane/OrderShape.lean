import Mathlib.Algebra.BigOperators.Group.List.Lemmas
import Mathlib.Data.List.Range
import Mathlib.Order.Basic
import SchedPass.Lib.KeyGroups
import SchedPass.Plane.Order

set_option autoImplicit false

/-! # The shape of the installed orders

`region_order` puts the heaviest and the lightest tiles in turn into the prefix and the rest behind it,
heaviest first (`regionOrder_regionAware`). `_grouped_lpt` keeps chunks of adjacent tiles together and
sorts the chunks by their total cost as torch adds it up; the padding that fills up the last chunk is
dropped again wherever that chunk has gone (`groupedLpt_blocks`). The sums are float32 sums: totals that
round to the same number come in any order (`groupedLpt_lighter_first`). Equal costs may come in any order
too. -/

namespace SchedPass

variable {C K : Type}

/-- A permutation of the indices that sorts the costs in descending order, ties in any order. -/
structure Descending [Zero C] [LE C] (cost : List C) (order : List ℕ) : Prop where
  perm : order.Perm (List.range cost.length)
  sorted : order.Pairwise fun i j => cost.getD j 0 ≤ cost.getD i 0

/-- What torch documents of `argsort(…, descending=True)`: the indices by descending value, ties in any
    order. -/
structure SortsDescending [Zero K] [LE K] (argsort : List K → List ℕ) : Prop where
  perm : SortsIndices argsort
  sorted : ∀ c, (argsort c).Pairwise fun i j => c.getD j 0 ≤ c.getD i 0

theorem SortsDescending.descending [Zero K] [LE K] {argsort : List K → List ℕ}
    (h : SortsDescending argsort) (c : List K) : Descending c (argsort c) := ⟨h.perm c, h.sorted c⟩

theorem sortsDescending_argsortDesc : SortsDescending argsortDesc where
  perm := sortsIndices_argsortDesc
  sorted c :=
    have : Std.Total fun i j => c.getD j 0 ≤ c.getD i 0 := ⟨fun _ _ => le_total _ _⟩
    have : IsTrans ℕ fun i j => c.getD j 0 ≤ c.getD i 0 := ⟨fun _ _ _ hij hjk => hjk.trans hij⟩
    List.pairwise_insertionSort _ _

/-! ## Region-aware orders -/

/-- The tiles at the even places of the prefix. -/
def heavyTiles (order : List ℕ) (R : ℕ) : List ℕ :=
  (List.range ((R + 1) / 2)).map fun i => order.getD (2 * i) 0

/-- The tiles at the odd places of the prefix. -/
def lightTiles (order : List ℕ) (R : ℕ) : List ℕ :=
  (List.range (R / 2)).map fun i => order.getD (2 * i + 1) 0

/-- What `region_order` is for: the prefix `[0, R)` alternates the heaviest and the lightest tiles, and
    the suffix holds the rest, heaviest first. -/
structure RegionAware [Zero K] [LE K] (cost : List K) (R : ℕ) (order : List ℕ) : Prop where
  perm : order.Perm (List.range cost.length)
  heavy : (heavyTiles order R).Pairwise fun i j => cost.getD j 0 ≤ cost.getD i 0
  heaviest : ∀ i ∈ heavyTiles order R, ∀ j < cost.length, j ∉ heavyTiles order R →
    cost.getD j 0 ≤ cost.getD i 0
  light : (lightTiles order R).Pairwise fun i j => cost.getD i 0 ≤ cost.getD j 0
  lightest : ∀ i ∈ lightTiles order R, ∀ j < cost.length, j ∉ lightTiles order R →
    cost.getD i 0 ≤ cost.getD j 0
  rest : (order.drop R).Pairwise fun i j => cost.getD j 0 ≤ cost.getD i 0
  between : ∀ j ∈ order.drop R, (∀ i ∈ heavyTiles order R, cost.getD j 0 ≤ cost.getD i 0) ∧
    ∀ i ∈ lightTiles order R, cost.getD i 0 ≤ cost.getD j 0

/-- The first list's elements at the even places, the second's at the odd ones. -/
theorem getElem?_interleave {α : Type} (as bs : List α) (hlong : as.length ≤ bs.length + 1)
    (hshort : bs.length ≤ as.length) (i : ℕ) :
    (i < as.length → (interleave as bs)[2 * i]? = as[i]?) ∧
      (i < bs.length → (interleave as bs)[2 * i + 1]? = bs[i]?) := by
  induction as, bs using interleave.induct generalizing i with
  | case1 bs =>
      simp only [List.length_nil, Nat.le_zero, List.length_eq_zero_iff] at hshort
      simp [hshort]
  | case2 a as =>
      simp only [List.length_cons, List.length_nil] at hlong
      obtain rfl := List.length_eq_zero_iff.1 (show as.length = 0 by omega)
      refine ⟨fun hi => ?_, fun hi => absurd hi (Nat.not_lt_zero _)⟩
      obtain rfl : i = 0 := by simpa using hi
      rfl
  | case3 a as b bs ih =>
      rw [interleave]
      cases i with
      | zero => simp
      | succ i =>
          simp only [List.length_cons, Nat.add_lt_add_iff_right] at hlong hshort ⊢
          exact ih (by omega) (by omega) i

theorem length_interleave {α : Type} (as bs : List α) :
    (interleave as bs).length = as.length + bs.length := by
  rw [(interleave_perm as bs).length_eq, List.length_append]

section

variable (as bs rest : List ℕ) {R : ℕ}

theorem heavyTiles_interleave (has : as.length = (R + 1) / 2) (hbs : bs.length = R / 2) :
    heavyTiles (interleave as bs ++ rest) R = as := by
  rw [heavyTiles, ← has]
  refine map_range_getD as 0 fun i hi => ?_
  have hlen := length_interleave as bs
  rw [List.getD_eq_getElem?_getD, List.getElem?_append_left (by omega),
    (getElem?_interleave as bs (by omega) (by omega) i).1 hi, List.getD_eq_getElem?_getD]

theorem lightTiles_interleave (has : as.length = (R + 1) / 2) (hbs : bs.length = R / 2) :
    lightTiles (interleave as bs ++ rest) R = bs := by
  rw [lightTiles, ← hbs]
  refine map_range_getD bs 0 fun i hi => ?_
  have hlen := length_interleave as bs
  rw [List.getD_eq_getElem?_getD, List.getElem?_append_left (by omega),
    (getElem?_interleave as bs (by omega) (by omega) i).2 hi, List.getD_eq_getElem?_getD]

theorem drop_interleave (has : as.length = (R + 1) / 2) (hbs : bs.length = R / 2) :
    (interleave as bs ++ rest).drop R = rest := by
  refine List.drop_left' ?_
  rw [length_interleave]
  omega

end

/-- A permutation of the tiles in three parts. -/
theorem mem_or_of_perm_range {n : ℕ} {l as bs : List ℕ} (h : l.Perm (List.range n))
    (hl : l = as ++ bs) {j : ℕ} (hj : j < n) : j ∈ as ∨ j ∈ bs := by
  have hmem : j ∈ l := h.mem_iff.2 (List.mem_range.2 hj)
  rwa [hl, List.mem_append] at hmem

/-- **The region-aware order.** For every prefix size below the tile count, where the sort of the float32
    costs sorts the costs, the even places of the prefix hold the heaviest tiles in descending order, the
    odd ones the lightest in ascending order, and the suffix the tiles between, heaviest first. -/
theorem regionOrder_regionAware [Zero C] [Preorder C] [Zero K] (float : C → K) (blockSum : List K → K)
    {argsort : List K → List ℕ} (block : ℤ) (cost : List C) (R : ℕ)
    (hsort : Descending cost (argsort (cost.map float))) (hpos : 0 < R) (hR : R < cost.length) :
    RegionAware cost R (regionOrder float blockSum argsort block cost R) := by
  have hcond : ¬((R : ℤ) ≤ 0 ∨ (cost.length : ℤ) ≤ R) := by omega
  have hall := regionOrder_split_perm float blockSum block hsort.perm hcond
  obtain ⟨hperm, hsorted⟩ := hsort
  have hlen : (argsort (cost.map float)).length = cost.length := by
    rw [hperm.length_eq, List.length_range]
  generalize hlpt : argsort (cost.map float) = lpt at hperm hsorted hlen
  -- the sorted list falls into a heavy, a middle and a light part
  let heavy := lpt.take ((R + 1) / 2)
  let middle := (lpt.take (cost.length - R / 2)).drop ((R + 1) / 2)
  let light := lpt.drop (cost.length - R / 2)
  have hsplit : lpt = heavy ++ (middle ++ light) := by
    have hfirst := List.take_append_drop ((R + 1) / 2) (lpt.take (cost.length - R / 2))
    rw [List.take_take, min_eq_left (by omega)] at hfirst
    rw [← List.append_assoc, hfirst, List.take_append_drop]
  have hnl : R - (R + 1) / 2 = R / 2 := by omega
  have horder : regionOrder float blockSum argsort block cost R
      = interleave heavy light.reverse ++ middle := by
    simp only [regionOrder, List.length_map, if_neg hcond, Int.toNat_natCast, hlpt, hnl, heavy, middle,
      light]
  have hheavy : heavy.length = (R + 1) / 2 := by
    simp only [heavy, List.length_take]
    omega
  have hlight : light.reverse.length = R / 2 := by
    simp only [light, List.length_reverse, List.length_drop]
    omega
  rw [hsplit] at hsorted
  obtain ⟨hsHeavy, hsRest, hheavyRest⟩ := List.pairwise_append.1 hsorted
  obtain ⟨hsMiddle, hsLight, hmiddleLight⟩ := List.pairwise_append.1 hsRest
  have hEven := heavyTiles_interleave heavy light.reverse middle hheavy hlight
  have hOdd := lightTiles_interleave heavy light.reverse middle hheavy hlight
  have hDrop := drop_interleave heavy light.reverse middle hheavy hlight
  rw [horder] at hall ⊢
  refine ⟨hall, hEven.symm ▸ hsHeavy, ?_, hOdd.symm ▸ List.pairwise_reverse.2 hsLight, ?_,
    hDrop.symm ▸ hsMiddle, ?_⟩
  · rw [hEven]
    intro i hi j hj hnot
    rcases mem_or_of_perm_range hperm hsplit hj with hmem | hmem
    · exact absurd hmem hnot
    · exact hheavyRest i hi j hmem
  · rw [hOdd]
    intro i hi j hj hnot
    rw [List.mem_reverse] at hi hnot
    have hsplit' : lpt = (heavy ++ middle) ++ light := by rw [hsplit, List.append_assoc]
    rcases mem_or_of_perm_range hperm hsplit' hj with hmem | hmem
    · rcases List.mem_append.1 hmem with hmem | hmem
      · exact hheavyRest j hmem i (List.mem_append_right _ hi)
      · exact hmiddleLight j hmem i hi
    · exact absurd hmem hnot
  · rw [hEven, hOdd, hDrop]
    intro j hj
    refine ⟨fun i hi => hheavyRest i hi j (List.mem_append_left _ hj), fun i hi => ?_⟩
    exact hmiddleLight j hj i (List.mem_reverse.1 hi)

/-- A prefix of three among five tiles: the heaviest, the lightest and the second heaviest. -/
theorem regionOrder_regionAware_three :
    RegionAware [2, 9, 4, 7, 1] 3 (regionOrder id List.sum argsortDesc 16 [2, 9, 4, 7, 1] 3) :=
  regionOrder_regionAware id List.sum 16 [2, 9, 4, 7, 1] 3
    (List.map_id _ ▸ sortsDescending_argsortDesc.descending [2, 9, 4, 7, 1]) (by decide) (by decide)

/-! ## Grouped LPT -/

/-- The tiles of chunk `k`: `[k * b, min ((k + 1) * b) n)`. -/
def indexBlock (n b k : ℕ) : List ℕ := List.range' (k * b) (min ((k + 1) * b) n - k * b)

/-- The costs of chunk `k`. -/
def blockCosts [Zero K] (c : List K) (b k : ℕ) : List K := (indexBlock c.length b k).map fun i => c.getD i 0

/-- The total cost of chunk `k`. -/
def blockCost [Add K] [Zero K] (c : List K) (b k : ℕ) : K := (blockCosts c b k).sum

/-- The row of chunk `k` that torch adds up: its costs, and zeros in the place of tiles that are missing. -/
def blockRow [Zero K] (c : List K) (b k : ℕ) : List K :=
  blockCosts c b k ++ List.replicate (b - (indexBlock c.length b k).length) 0

/-- Dropping the padding slots of a chunk. -/
theorem filter_chunk (n b k : ℕ) :
    ((List.range b).map fun j => k * b + j).filter (· < n) = indexBlock n b k := by
  rw [indexBlock, ← List.range'_eq_map_range]
  have hend : (k + 1) * b = k * b + b := Nat.succ_mul k b
  generalize k * b = s at hend ⊢
  rw [hend]
  rcases le_total (s + b) n with h | h
  · rw [min_eq_left h, Nat.add_sub_cancel_left, List.filter_eq_self]
    intro i hi
    have := List.mem_range'_1.1 hi
    simp only [decide_eq_true_eq]
    omega
  · rw [min_eq_right h]
    have hcut : List.range' s b = List.range' s (n - s) ++ List.range' (s + (n - s)) (b - (n - s)) := by
      rw [List.range'_append_1]
      congr 1
      omega
    rw [hcut, List.filter_append]
    have hlow : (List.range' s (n - s)).filter (· < n) = List.range' s (n - s) :=
      List.filter_eq_self.2 fun i hi => by
        have := List.mem_range'_1.1 hi
        simp only [decide_eq_true_eq]
        omega
    have hhigh : (List.range' (s + (n - s)) (b - (n - s))).filter (· < n) = [] :=
      List.filter_eq_nil_iff.2 fun i hi => by
        have := List.mem_range'_1.1 hi
        simp only [decide_eq_true_eq]
        omega
    rw [hlow, hhigh, List.append_nil]

/-- A stretch of a list, by its indices. -/
theorem take_drop_eq_map_getD {α : Type} (c : List α) (d : α) (s b : ℕ) :
    (c.drop s).take b = (List.range' s (min (s + b) c.length - s)).map fun i => c.getD i d := by
  refine List.ext_getElem ?_ fun i h₁ h₂ => ?_
  · simp only [List.length_take, List.length_drop, List.length_map, List.length_range']
    omega
  · simp only [List.length_take, List.length_drop] at h₁
    rw [List.getElem_take, List.getElem_drop, List.getElem_map, List.getElem_range'_1,
      List.getD_eq_getElem]

/-- A row of the padded costs. -/
theorem take_drop_padded [Zero K] (c : List K) {b k pad : ℕ} (h : (k + 1) * b ≤ c.length + pad) :
    ((c ++ List.replicate pad 0).drop (k * b)).take b = blockRow c b k := by
  have hend : (k + 1) * b = k * b + b := Nat.succ_mul k b
  have hlength : (indexBlock c.length b k).length = min ((k + 1) * b) c.length - k * b :=
    List.length_range'
  rw [List.drop_append, List.drop_replicate, List.take_append, List.take_replicate,
    take_drop_eq_map_getD c 0 (k * b) b, blockRow, blockCosts, hlength, indexBlock, hend]
  congr 2
  rw [List.length_drop]
  omega

/-- **Grouped LPT.** For every chunk size the result is a permutation of the tiles: a descending sort when
    a chunk is one tile or everything, else the chunks of adjacent tiles, each in index order, by
    descending sum of their rows as torch adds them up. Two chunks are out of the order of their true totals,
    the short last one by the sum of its own tiles, by no more than twice the error of those sums. -/
theorem groupedLpt_blocks [AddCommMonoid K] [Preorder K] [IsOrderedAddMonoid K] {argsort : List K → List ℕ}
    (hsort : SortsDescending argsort) (blockSum : List K → K) (c : List K) (b : ℤ) :
    (groupedLpt blockSum argsort c b).Perm (List.range c.length) ∧
      (b ≤ 1 ∨ (c.length : ℤ) ≤ b →
        (groupedLpt blockSum argsort c b).Pairwise fun i j => c.getD j 0 ≤ c.getD i 0) ∧
      (1 < b → b < c.length →
        ∃ ks : List ℕ, ks.Perm (List.range ((c.length + b.toNat - 1) / b.toNat)) ∧
          groupedLpt blockSum argsort c b = ks.flatMap (indexBlock c.length b.toNat) ∧
          (ks.Pairwise fun k l => blockSum (blockRow c b.toNat l) ≤ blockSum (blockRow c b.toNat k)) ∧
          ∀ δ, (∀ k ∈ ks, blockSum (blockRow c b.toNat k) ≤ blockCost c b.toNat k + δ ∧
              blockCost c b.toNat k ≤ blockSum (blockRow c b.toNat k) + δ) →
            ks.Pairwise fun k l => blockCost c b.toNat l ≤ blockCost c b.toNat k + (δ + δ)) := by
  refine ⟨groupedLpt_perm hsort.perm blockSum c b, fun hplain => ?_, fun hlo hhi => ?_⟩
  · simp only [groupedLpt, if_pos hplain]
    exact hsort.sorted c
  · obtain ⟨b, rfl⟩ := Int.eq_ofNat_of_zero_le (show 0 ≤ b by omega)
    rw [Int.toNat_natCast]
    let nb := (c.length + b - 1) / b
    let bcost := (List.range nb).map fun k =>
      blockSum (((c ++ List.replicate (nb * b - c.length) 0).drop (k * b)).take b)
    have hlength : bcost.length = nb := by simp [bcost]
    have hperm : (argsort bcost).Perm (List.range nb) := hlength ▸ hsort.perm bcost
    have hrow : ∀ k < nb, bcost.getD k 0 = blockSum (blockRow c b k) := by
      intro k hk
      have hmul : (k + 1) * b ≤ nb * b := Nat.mul_le_mul_right b hk
      rw [List.getD_eq_getElem _ _ (hlength.symm ▸ hk), List.getElem_map, List.getElem_range,
        take_drop_padded c (by omega)]
    have hsums : (argsort bcost).Pairwise fun k l =>
        blockSum (blockRow c b l) ≤ blockSum (blockRow c b k) := by
      refine (hsort.sorted bcost).imp_of_mem fun hk hl hle => ?_
      rwa [hrow _ (List.mem_range.1 (hperm.mem_iff.1 hl)),
        hrow _ (List.mem_range.1 (hperm.mem_iff.1 hk))] at hle
    refine ⟨argsort bcost, hperm, ?_, hsums, fun δ herror => ?_⟩
    · have hcond : ¬((b : ℤ) ≤ 1 ∨ (c.length : ℤ) ≤ b) := by omega
      have horder : groupedLpt blockSum argsort c b = ((argsort bcost).flatMap fun k =>
          (List.range b).map fun j => k * b + j).filter (· < c.length) := by
        simp only [groupedLpt, if_neg hcond, Int.toNat_natCast, bcost, nb]
      rw [horder, List.filter_flatMap]
      exact List.flatMap_congr fun k _ => filter_chunk c.length b k
    · refine hsums.imp_of_mem fun {k l} hk hl hle => ?_
      calc blockCost c b l ≤ blockSum (blockRow c b l) + δ := (herror l hl).2
        _ ≤ blockSum (blockRow c b k) + δ := add_le_add_left hle δ
        _ ≤ blockCost c b k + δ + δ := add_le_add_left (herror k hk).1 δ
        _ = blockCost c b k + (δ + δ) := add_assoc ..

/-! ## Float32 sums -/

/-- The natural number that a float32 number stands for. -/
def natOfF32 (x : Float32.Model) : ℕ := (x.unpack.toInt 0 0).toNat

/-- A float32 sum of natural numbers, from the left. -/
def sumF32 (row : List ℕ) : ℕ :=
  natOfF32 (row.foldl (fun total x => total + Float32.Model.ofNat x) (Float32.Model.ofNat 0))

/-- Chunks of two among five tiles: the short last chunk, of cost 9, comes between those of 10 and 3. -/
theorem groupedLpt_blocks_two :
    ∃ ks : List ℕ, ks.Perm (List.range 3) ∧
      groupedLpt sumF32 argsortDesc [1, 2, 3, 7, 9] 2 = ks.flatMap (indexBlock 5 2) ∧
      ks.Pairwise fun k l => blockCost [1, 2, 3, 7, 9] 2 l ≤ blockCost [1, 2, 3, 7, 9] 2 k := by
  obtain ⟨ks, hperm, horder, -, htotals⟩ := (groupedLpt_blocks sortsDescending_argsortDesc sumF32
    [1, 2, 3, 7, 9] 2).2.2 (by decide) (by decide)
  have hexact : ∀ k < 3, sumF32 (blockRow [1, 2, 3, 7, 9] 2 k) = blockCost [1, 2, 3, 7, 9] 2 k := by
    decide +kernel
  refine ⟨ks, hperm, horder, htotals 0 fun k hk => ?_⟩
  have hsum := hexact k (List.mem_range.1 (hperm.mem_iff.1 hk))
  exact ⟨hsum.le, hsum.ge⟩

example : groupedLpt sumF32 argsortDesc [1, 2, 3, 7, 9] 2 = [2, 3, 4, 0, 1] := by decide +kernel

/-- Two chunks of sixteen tiles of cost 1100000, one tile of cost 1100001: the totals 17600000 and 17600001
    round to the same float32 number, and a stable sort leaves the lighter chunk first. -/
theorem groupedLpt_lighter_first :
    let c := List.replicate 31 1100000 ++ [1100001]
    ¬∃ ks : List ℕ, ks.Perm (List.range 2) ∧
      groupedLpt sumF32 argsortDesc c 16 = ks.flatMap (indexBlock 32 16) ∧
      ks.Pairwise fun k l => blockCost c 16 l ≤ blockCost c 16 k := by
  intro c
  have horder : groupedLpt sumF32 argsortDesc c 16 = [0, 1].flatMap (indexBlock 32 16) := by
    decide +kernel
  have hlighter : blockCost c 16 0 < blockCost c 16 1 := by decide +kernel
  rintro ⟨ks, hperm, hks, hpairwise⟩
  rw [horder] at hks
  obtain ⟨k, l, rfl⟩ := List.length_eq_two.1 hperm.length_eq
  have hk : k < 2 := List.mem_range.1 (hperm.mem_iff.1 (List.mem_cons_self))
  have hl : l < 2 := List.mem_range.1 (hperm.mem_iff.1 (List.mem_cons_of_mem k (List.mem_singleton_self l)))
  have hne : k ≠ l := List.rel_of_pairwise_cons (hperm.nodup_iff.2 List.nodup_range) (List.mem_singleton_self l)
  obtain ⟨rfl, rfl⟩ | ⟨rfl, rfl⟩ : k = 0 ∧ l = 1 ∨ k = 1 ∧ l = 0 := by omega
  · exact absurd (List.rel_of_pairwise_cons hpairwise (List.mem_singleton_self 1)) (not_le.2 hlighter)
  · exact absurd hks (by decide)

end SchedPass
