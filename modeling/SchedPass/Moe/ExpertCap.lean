import Mathlib.Data.Rat.Floor
import SchedPass.Lib.KeyGroups

set_option autoImplicit false

/-! # Expert capacity (`moe_expert_cap`)

The slots of a routing are sorted by expert, ranked inside their expert's group by taking off the group's
start, and scattered back; a slot whose rank is not below the capacity loses its weight. As the sort is
stable, the rank is the number of earlier slots of the expert (`moeExpertCap_eq`), so an expert keeps its
first arrivals (`expertCap_of_capacity`). The capacity is a double cut towards zero, which is not the floor of
the exact quotient. -/

namespace SchedPass

/-! ## Doubles and integers -/

/-- An `int` as an operand of a float operation (`none`: OverflowError). -/
def pyFloatOfInt (n : ℕ) : Option Float.Model :=
  let x := Float.Model.ofNat n
  match x.unpack with
  | .infinity _ => none
  | _ => some x

/-- `int(x)`: cut towards zero (`none`: OverflowError or ValueError). -/
def pyIntOfFloat (x : Float.Model) : Option ℤ :=
  match x.unpack with
  | .infinity _ | .notANumber => none
  | u => some (u.toInt 0 0)

/-- `int(capacity_factor * (nt * k) / num_experts)`. -/
def capacity (capacityFactor : Float.Model) (slots numExperts : ℕ) : Option ℤ :=
  if numExperts = 0 then none  -- ZeroDivisionError
  else do
    let product := capacityFactor * (← pyFloatOfInt slots)
    pyIntOfFloat (product / (← pyFloatOfInt numExperts))

/-! ## Tensors -/

/-- A tensor of two dimensions, flattened row by row. -/
structure Tensor2 (α : Type) where
  rows : ℕ
  cols : ℕ
  data : List α
  size : data.length = rows * cols

namespace Tensor2

variable {α : Type}

@[ext] theorem ext {s t : Tensor2 α} (hrows : s.rows = t.rows) (hcols : s.cols = t.cols)
    (hdata : s.data = t.data) : s = t := by
  obtain ⟨_, _, _, _⟩ := s
  obtain ⟨_, _, _, _⟩ := t
  cases hrows
  cases hcols
  cases hdata
  rfl

instance [DecidableEq α] : DecidableEq (Tensor2 α) := fun s t =>
  decidable_of_iff (s.rows = t.rows ∧ s.cols = t.cols ∧ s.data = t.data)
    ⟨fun ⟨hrows, hcols, hdata⟩ => ext hrows hcols hdata, fun h => h ▸ ⟨rfl, rfl, rfl⟩⟩

end Tensor2

/-- `flat.reshape(rows, cols)`. -/
def reshape {α : Type} (flat : List α) (rows cols : ℕ) : Option (Tensor2 α) :=
  if h : flat.length = rows * cols then some ⟨rows, cols, flat, h⟩ else none

/-- `torch.cumsum`. -/
def cumsum (xs : List ℕ) : List ℕ := (List.range xs.length).map fun i => (xs.take (i + 1)).sum

/-- `torch.zeros(n).scatter_add_(0, index, ones)`: every index must lie in the tensor. -/
def scatterAddOnes (n : ℕ) (index : List ℤ) : Option (List ℕ) :=
  if ∀ e ∈ index, 0 ≤ e ∧ e < n then
    some (index.foldl (fun counts e => counts.modify e.toNat (· + 1)) (List.replicate n 0))
  else none

/-- `torch.masked_fill(w, mask, 0.0)`. -/
def maskedFill {W : Type} [Zero W] (w : List W) (mask : List Bool) : List W :=
  w.zipWith (fun x masked => if masked then 0 else x) mask

/-! ## The cap -/

variable {W : Type} [Zero W]

/-- `moe_expert_cap`; `none` is an exception. -/
def moeExpertCap (topkIds : Tensor2 ℤ) (topkWeights : Tensor2 W) (numExperts : ℕ)
    (capacityFactor : Float.Model) (count : Bool) (minCapacity : ℤ) :
    Option (Tensor2 W × Option ℕ) := do
  let C ← capacity capacityFactor (topkIds.rows * topkIds.cols) numExperts
  if C < minCapacity then some (topkWeights, if count then some 0 else none)
  else do
    let flatE := topkIds.data
    let flatW := topkWeights.data
    let order := argsortStable (flatE.getD · 0) flatE.length
    let sortedE := order.map (flatE.getD · 0)
    let counts ← scatterAddOnes numExperts flatE
    let grpStart := 0 :: (cumsum counts).dropLast
    let within := sortedE.mapIdx fun p e => (p : ℤ) - grpStart.getD e.toNat 0
    -- `within >= C` takes `C` as an `int64`, and `overflow`, of the weights' shape, is indexed by slots
    if ¬(-2 ^ 63 ≤ C ∧ C < 2 ^ 63) ∨ flatW.length < flatE.length then none
    else do
      let overflow := scatter (List.replicate flatW.length false) order (within.map (C ≤ ·))
      let dropped := if count then some (overflow.count true) else none
      return (← reshape (maskedFill flatW overflow) topkIds.rows topkIds.cols, dropped)

/-! ## Ranks -/

/-- The slots of an expert, in arrival order. -/
def expertSlots (ids : List ℤ) (e : ℤ) : List ℕ :=
  (List.range ids.length).filter fun i => ids.getD i 0 = e

/-- The number of earlier slots of the same expert. -/
def slotRank (ids : List ℤ) (i : ℕ) : ℕ := (List.range i).countP fun j => ids.getD j 0 = ids.getD i 0

/-- The weights with every slot masked that comes behind the first `C` of its expert. -/
def cappedWeights (C : ℤ) (ids : List ℤ) (w : List W) : List W :=
  (List.range w.length).map fun i => if C ≤ slotRank ids i then 0 else w.getD i 0

/-- The number of masked slots. -/
def droppedSlots (C : ℤ) (ids : List ℤ) : ℕ :=
  (List.range ids.length).countP fun i => C ≤ slotRank ids i

/-- The counts of the experts. -/
theorem scatterAddOnes_eq {n : ℕ} {index : List ℤ} (h : ∀ e ∈ index, 0 ≤ e ∧ e < n) :
    scatterAddOnes n index = some ((List.range n).map fun e : ℕ => index.count (e : ℤ)) := by
  have hfold : ∀ (index : List ℤ) (f : ℕ → ℕ), (∀ e ∈ index, 0 ≤ e ∧ e < n) →
      index.foldl (fun counts e => counts.modify e.toNat (· + 1)) ((List.range n).map f)
        = (List.range n).map fun e : ℕ => f e + index.count (e : ℤ) := by
    intro index
    induction index with
    | nil => exact fun f _ => rfl
    | cons e index ih =>
        intro f hindex
        have he := hindex e List.mem_cons_self
        obtain ⟨k, rfl⟩ := Int.eq_ofNat_of_zero_le he.1
        have hmodify : ((List.range n).map f).modify (k : ℤ).toNat (· + 1)
            = (List.range n).map fun e => f e + if k = e then 1 else 0 := by
          refine List.ext_getElem (by simp) fun e h₁ h₂ => ?_
          rw [List.getElem_modify, List.getElem_map, List.getElem_map, List.getElem_range, Int.toNat_natCast]
          split <;> rfl
        rw [List.foldl_cons, hmodify, ih _ fun e he => hindex e (List.mem_cons_of_mem _ he)]
        refine List.map_congr_left fun e _ => ?_
        by_cases hke : k = e
        · subst hke
          rw [if_pos rfl, List.count_cons_self, Nat.add_assoc, Nat.add_comm 1]
        · rw [if_neg hke, List.count_cons_of_ne (by exact_mod_cast hke), Nat.add_zero]
  have hzero : List.replicate n 0 = (List.range n).map fun _ => 0 := by simp
  rw [scatterAddOnes, if_pos h, hzero, hfold index _ h]
  simp only [Nat.zero_add]

/-- The start of an expert's group: the slots of the experts below it. -/
theorem grpStart_eq {n e : ℕ} {ids : List ℤ} (hids : ∀ e ∈ ids, 0 ≤ e ∧ e < n) (he : e < n) :
    (0 :: (cumsum ((List.range n).map fun e : ℕ => ids.count (e : ℤ))).dropLast).getD e 0
      = ids.countP (· < (e : ℤ)) := by
  have hnonneg : ∀ e ∈ ids, 0 ≤ e := fun e he => (hids e he).1
  rw [← sum_map_count hnonneg]
  cases e with
  | zero => rfl
  | succ e =>
      have hlen : e < (cumsum ((List.range n).map fun e : ℕ => ids.count (e : ℤ))).dropLast.length := by
        simp only [cumsum, List.length_dropLast, List.length_map, List.length_range]
        omega
      rw [List.getD_cons_succ, List.getD_eq_getElem _ _ hlen, List.getElem_dropLast]
      simp only [cumsum, List.getElem_map, List.getElem_range]
      rw [← List.map_take, List.take_range, min_eq_left he.le]

/-- **Off the group's start, a slot's place is its rank.** -/
theorem within_eq {ids : List ℤ} {p : ℕ}
    (hp : p < (argsortStable (ids.getD · 0) ids.length).length) :
    (p : ℤ) - ids.countP (· < ids.getD (argsortStable (ids.getD · 0) ids.length)[p] 0)
      = slotRank ids (argsortStable (ids.getD · 0) ids.length)[p] := by
  have hplace := argsortStable_place (ids.getD · 0) hp
  generalize (argsortStable (ids.getD · 0) ids.length)[p] = i at hplace ⊢
  have hbelow := countP_range_getD ids 0 fun e => decide (e < ids.getD i 0)
  rw [hbelow] at hplace
  rw [slotRank]
  omega

/-- The ranks by place in the sorted order, as the code computes them. -/
theorem mapIdx_within {n : ℕ} {ids : List ℤ} (hids : ∀ e ∈ ids, 0 ≤ e ∧ e < n) :
    ((argsortStable (ids.getD · 0) ids.length).map (ids.getD · 0)).mapIdx (fun p e =>
        (p : ℤ) - (0 :: (cumsum ((List.range n).map fun e : ℕ => ids.count (e : ℤ))).dropLast).getD e.toNat 0)
      = (argsortStable (ids.getD · 0) ids.length).map fun i => (slotRank ids i : ℤ) := by
  refine List.ext_getElem (by simp) fun p h₁ h₂ => ?_
  have hp : p < (argsortStable (ids.getD · 0) ids.length).length := by simpa using h₂
  have hi : (argsortStable (ids.getD · 0) ids.length)[p] < ids.length :=
    List.mem_range.1 ((argsortStable_perm _ _).mem_iff.1 (List.getElem_mem hp))
  have hwithin := within_eq hp
  simp only [List.getElem_mapIdx, List.getElem_map]
  generalize (argsortStable (ids.getD · 0) ids.length)[p] = i at hi hwithin ⊢
  obtain ⟨hlo, hhi⟩ := hids (ids.getD i 0) (by rw [List.getD_eq_getElem _ _ hi]; exact List.getElem_mem hi)
  obtain ⟨e, he⟩ := Int.eq_ofNat_of_zero_le hlo
  rw [he] at hhi hwithin ⊢
  rw [Int.toNat_natCast, grpStart_eq hids (by exact_mod_cast hhi), hwithin]

/-- `overflow` holds the masked slots. -/
theorem scatter_overflow (C : ℤ) (ids : List ℤ) :
    scatter (List.replicate ids.length false) (argsortStable (ids.getD · 0) ids.length)
        (((argsortStable (ids.getD · 0) ids.length).map fun i => (slotRank ids i : ℤ)).map (C ≤ ·))
      = (List.range ids.length).map fun i => decide (C ≤ slotRank ids i) := by
  have hperm : (argsortStable (ids.getD · 0) ids.length).Perm
      (List.range (List.replicate ids.length false).length) := by
    rw [List.length_replicate]
    exact argsortStable_perm _ _
  have hscatter := scatter_map hperm fun i => decide (C ≤ (slotRank ids i : ℤ))
  rw [List.length_replicate] at hscatter
  rw [List.map_map]
  exact hscatter

theorem maskedFill_range (C : ℤ) (ids : List ℤ) (w : List W) :
    maskedFill w ((List.range w.length).map fun i => decide (C ≤ slotRank ids i)) = cappedWeights C ids w := by
  refine List.ext_getElem (by simp [maskedFill, cappedWeights]) fun i h₁ h₂ => ?_
  have hi : i < w.length := by simpa [cappedWeights] using h₂
  simp only [maskedFill, cappedWeights, List.getElem_zipWith, List.getElem_map, List.getElem_range,
    List.getD_eq_getElem _ _ hi, decide_eq_true_eq]

theorem length_cappedWeights (C : ℤ) (ids : List ℤ) (w : List W) :
    (cappedWeights C ids w).length = w.length := by
  simp [cappedWeights]

theorem reshape_of_ne {α : Type} {flat : List α} {rows cols : ℕ} (h : flat.length ≠ rows * cols) :
    reshape flat rows cols = none := dif_neg h

/-- **What the cap returns**, for every routing and every weights. -/
theorem moeExpertCap_eq (topkIds : Tensor2 ℤ) (topkWeights : Tensor2 W) (numExperts : ℕ)
    (capacityFactor : Float.Model) (count : Bool) (minCapacity : ℤ) :
    moeExpertCap topkIds topkWeights numExperts capacityFactor count minCapacity
      = (capacity capacityFactor (topkIds.rows * topkIds.cols) numExperts).bind fun C =>
          if C < minCapacity then some (topkWeights, if count then some 0 else none)
          else if (∀ e ∈ topkIds.data, 0 ≤ e ∧ e < numExperts) ∧ -2 ^ 63 ≤ C ∧ C < 2 ^ 63 then
            (reshape (cappedWeights C topkIds.data topkWeights.data) topkIds.rows topkIds.cols).map
              fun w => (w, if count then some (droppedSlots C topkIds.data) else none)
          else none := by
  rw [moeExpertCap]
  refine congrArg _ (funext fun C => ?_)
  by_cases hmin : C < minCapacity
  · rw [if_pos hmin, if_pos hmin]
  · rw [if_neg hmin, if_neg hmin]
    by_cases hids : ∀ e ∈ topkIds.data, 0 ≤ e ∧ e < numExperts
    · simp only [scatterAddOnes_eq hids, Option.bind_eq_bind, Option.bind_some, mapIdx_within hids]
      by_cases hfit : -2 ^ 63 ≤ C ∧ C < 2 ^ 63
      · have hret : (∀ e ∈ topkIds.data, 0 ≤ e ∧ e < numExperts) ∧ -2 ^ 63 ≤ C ∧ C < 2 ^ 63 := ⟨hids, hfit⟩
        rw [if_pos hret, Option.map_eq_bind]
        by_cases hlen : topkWeights.data.length = topkIds.data.length
        · have hrun : ¬(¬(-2 ^ 63 ≤ C ∧ C < 2 ^ 63) ∨ topkWeights.data.length < topkIds.data.length) := by
            rintro (h | h)
            · exact h hfit
            · exact h.ne hlen
          rw [if_neg hrun, droppedSlots, hlen, scatter_overflow, count_true_map, ← hlen, maskedFill_range]
          rfl
        · -- whatever is masked, the reshape fails
          have hne : topkWeights.data.length ≠ topkIds.rows * topkIds.cols := fun h =>
            hlen (h.trans topkIds.size.symm)
          have hcapped : reshape (cappedWeights C topkIds.data topkWeights.data) topkIds.rows topkIds.cols
              = none := reshape_of_ne (by rwa [length_cappedWeights])
          rw [hcapped, Option.bind_none]
          split
          · rfl
          · rw [reshape_of_ne, Option.bind_none]
            rwa [maskedFill, List.length_zipWith, length_scatter, List.length_replicate, min_self]
      · rw [if_pos (.inl hfit), if_neg fun h => hfit h.2]
    · rw [if_neg fun h => hids h.1]
      simp only [scatterAddOnes, if_neg hids, Option.bind_eq_bind, Option.bind_none]

/-! ## First arrivals -/

section

variable (ids : List ℤ) (e : ℤ)

theorem length_expertSlots : (expertSlots ids e).length = ids.count e := by
  rw [expertSlots, ← List.countP_eq_length_filter, countP_range_getD ids 0 fun x => decide (x = e), List.count]
  exact List.countP_congr fun x _ => by simp

/-- The rank of a slot counts the slots of its own expert. -/
theorem slotRank_of_mem {i : ℕ} (hi : i ∈ expertSlots ids e) :
    slotRank ids i = (List.range i).countP fun j => ids.getD j 0 = e := by
  have he : ids.getD i 0 = e := of_decide_eq_true (List.mem_filter.1 hi).2
  rw [slotRank, he]

theorem mem_take_expertSlots {C i : ℕ} :
    i ∈ (expertSlots ids e).take (min (ids.count e) C) ↔ i ∈ expertSlots ids e ∧ slotRank ids i < C := by
  rw [← length_expertSlots, min_comm, ← List.take_eq_take_min]
  constructor
  · intro h
    have hmem := List.mem_of_mem_take h
    rw [slotRank_of_mem ids e hmem]
    exact ⟨hmem, (mem_take_filter_range.1 h).2.2⟩
  · rintro ⟨hmem, hrank⟩
    rw [slotRank_of_mem ids e hmem] at hrank
    obtain ⟨hi, he⟩ := List.mem_filter.1 hmem
    exact mem_take_filter_range.2 ⟨List.mem_range.1 hi, he, hrank⟩

theorem mem_drop_expertSlots {C i : ℕ} :
    i ∈ (expertSlots ids e).drop (min (ids.count e) C) ↔ i ∈ expertSlots ids e ∧ C ≤ slotRank ids i := by
  have htake := mem_take_expertSlots ids e (C := C) (i := i)
  have hnodup : (expertSlots ids e).Nodup := List.nodup_range.filter _
  constructor
  · intro h
    have hmem := List.mem_of_mem_drop h
    refine ⟨hmem, not_lt.1 fun hlt => ?_⟩
    exact List.disjoint_take_drop hnodup le_rfl (htake.2 ⟨hmem, hlt⟩) h
  · rintro ⟨hmem, hle⟩
    rw [← List.take_append_drop (min (ids.count e) C) (expertSlots ids e)] at hmem
    rcases List.mem_append.1 hmem with h | h
    · exact absurd (htake.1 h).2 (not_lt.2 hle)
    · exact h

end

theorem countP_le_range (m c : ℕ) : (List.range m).countP (fun i => decide (c ≤ i)) = m - c := by
  induction m with
  | zero => simp
  | succ m ih =>
      rw [List.range_succ, List.countP_append, ih, List.countP_singleton]
      by_cases h : c ≤ m
      · rw [if_pos (decide_eq_true h)]
        omega
      · rw [if_neg (by simpa using h)]
        omega

/-- What is masked, expert by expert. -/
theorem droppedSlots_eq {n : ℕ} {ids : List ℤ} (hids : ∀ e ∈ ids, 0 ≤ e ∧ e < n) (C : ℤ) :
    droppedSlots C ids = ∑ e ∈ Finset.range n, (ids.count (e : ℤ) - C.toNat) := by
  have hkey : ∀ i ∈ List.range ids.length, 0 ≤ ids.getD i 0 ∧ ids.getD i 0 < n := by
    intro i hi
    rw [List.getD_eq_getElem _ _ (List.mem_range.1 hi)]
    exact hids _ (List.getElem_mem _)
  rw [droppedSlots, ← sum_countP_filter_key hkey]
  refine Finset.sum_congr rfl fun e _ => ?_
  have hranks := map_rank_filter_range (fun i => decide (ids.getD i 0 = e)) ids.length
  have hcount := length_expertSlots ids e
  rw [expertSlots, ← List.countP_eq_length_filter] at hcount
  rw [← countP_le_range, ← hcount, ← hranks, List.countP_map]
  refine List.countP_congr fun i hi => ?_
  rw [slotRank_of_mem ids e hi]
  simp

/-- Every expert keeps the weights of its first `C` slots and loses those of the others. -/
structure ExpertsCapped (C numExperts : ℕ) (ids : List ℤ) (w w' : List W) : Prop where
  length : w'.length = w.length
  first : ∀ e < numExperts, ∀ i ∈ (expertSlots ids e).take (min (ids.count (e : ℤ)) C), w'[i]? = w[i]?
  later : ∀ e < numExperts, ∀ i ∈ (expertSlots ids e).drop (min (ids.count (e : ℤ)) C), w'[i]? = some 0
  other : ∀ i, (∀ e < numExperts, i ∉ (expertSlots ids e).drop (min (ids.count (e : ℤ)) C)) →
    w'[i]? = w[i]?

theorem getElem?_cappedWeights (C : ℤ) (ids : List ℤ) (w : List W) (i : ℕ) :
    (cappedWeights C ids w)[i]? = if C ≤ slotRank ids i ∧ i < w.length then some 0 else w[i]? := by
  rw [cappedWeights, List.getElem?_map]
  by_cases hi : i < w.length
  · by_cases hC : C ≤ slotRank ids i
    · simp [hi, hC]
    · simp [hi, hC]
  · simp [hi]

theorem expertsCapped_cappedWeights (C : ℤ) {n : ℕ} {ids : List ℤ} {w : List W}
    (hlen : w.length = ids.length) (hids : ∀ e ∈ ids, 0 ≤ e ∧ e < n) :
    ExpertsCapped C.toNat n ids w (cappedWeights C ids w) where
  length := length_cappedWeights C ids w
  first e _ i hi := by
    obtain ⟨-, hrank⟩ := (mem_take_expertSlots ids e).1 hi
    rw [getElem?_cappedWeights, if_neg]
    rintro ⟨hC, -⟩
    omega
  later e _ i hi := by
    obtain ⟨hmem, hrank⟩ := (mem_drop_expertSlots ids e).1 hi
    have hi : i < w.length := by
      rw [hlen]
      exact List.mem_range.1 (List.mem_filter.1 hmem).1
    rw [getElem?_cappedWeights, if_pos ⟨by omega, hi⟩]
  other i hi := by
    rw [getElem?_cappedWeights, if_neg]
    rintro ⟨hC, hlt⟩
    rw [hlen] at hlt
    obtain ⟨hlo, hhi⟩ := hids _ (List.getElem_mem hlt)
    obtain ⟨e, he⟩ := Int.eq_ofNat_of_zero_le hlo
    refine hi e (by omega) ((mem_drop_expertSlots ids e).2 ⟨?_, by omega⟩)
    refine List.mem_filter.2 ⟨List.mem_range.2 hlt, ?_⟩
    rw [List.getD_eq_getElem _ _ hlt, he]
    exact decide_eq_true rfl

/-- Capped weights stay as they are. -/
theorem cappedWeights_idem (C : ℤ) (ids : List ℤ) (w : List W) :
    cappedWeights C ids (cappedWeights C ids w) = cappedWeights C ids w := by
  refine List.ext_getElem? fun i => ?_
  rw [getElem?_cappedWeights, getElem?_cappedWeights, length_cappedWeights]
  split <;> rfl

section

variable {topkIds : Tensor2 ℤ} {topkWeights w : Tensor2 W} {numExperts : ℕ}
  {capacityFactor : Float.Model} {count : Bool} {minCapacity : ℤ} {dropped : Option ℕ}

theorem reshape_eq_some {α : Type} {flat : List α} {rows cols : ℕ} {t : Tensor2 α} :
    reshape flat rows cols = some t ↔ t.data = flat ∧ t.rows = rows ∧ t.cols = cols := by
  rw [reshape]
  split
  · next h =>
      rw [Option.some.injEq]
      constructor
      · rintro rfl
        exact ⟨rfl, rfl, rfl⟩
      · rintro ⟨hdata, hrows, hcols⟩
        exact Tensor2.ext hrows.symm hcols.symm hdata.symm
  · next h =>
      constructor
      · rintro ⟨⟩
      · rintro ⟨hdata, hrows, hcols⟩
        exact absurd (by rw [← hdata, t.size, hrows, hcols]) h

/-- What a cap that returned has returned. -/
theorem moeExpertCap_cases
    (h : moeExpertCap topkIds topkWeights numExperts capacityFactor count minCapacity
      = some (w, dropped)) :
    ∃ C, capacity capacityFactor (topkIds.rows * topkIds.cols) numExperts = some C ∧
      ((C < minCapacity ∧ w = topkWeights ∧ dropped = if count then some 0 else none) ∨
        (minCapacity ≤ C ∧ ((∀ e ∈ topkIds.data, 0 ≤ e ∧ e < numExperts) ∧ -2 ^ 63 ≤ C ∧ C < 2 ^ 63) ∧
          w.data = cappedWeights C topkIds.data topkWeights.data ∧ w.rows = topkIds.rows ∧
          w.cols = topkIds.cols ∧
          dropped = if count then some (droppedSlots C topkIds.data) else none)) := by
  rw [moeExpertCap_eq] at h
  obtain ⟨C, hC, h⟩ := Option.bind_eq_some_iff.1 h
  refine ⟨C, hC, ?_⟩
  split at h
  · next hmin =>
      cases h
      exact .inl ⟨hmin, rfl, rfl⟩
  · next hmin =>
      split at h
      · next hret =>
          obtain ⟨t, ht, h⟩ := Option.map_eq_some_iff.1 h
          cases h
          obtain ⟨hdata, hrows, hcols⟩ := reshape_eq_some.1 ht
          exact .inr ⟨not_lt.1 hmin, hret, hdata, hrows, hcols, rfl⟩
      · cases h

/-- **A second cap changes nothing.** -/
theorem moeExpertCap_again
    (h : moeExpertCap topkIds topkWeights numExperts capacityFactor count minCapacity
      = some (w, dropped)) :
    moeExpertCap topkIds w numExperts capacityFactor count minCapacity = some (w, dropped) := by
  obtain ⟨C, hC, ⟨hmin, rfl, -⟩ | ⟨hmin, hret, hdata, hrows, hcols, rfl⟩⟩ := moeExpertCap_cases h
  · exact h
  · have hreshape : reshape (cappedWeights C topkIds.data w.data) topkIds.rows topkIds.cols = some w := by
      rw [reshape_eq_some, hdata, cappedWeights_idem]
      exact ⟨rfl, hrows, hcols⟩
    rw [moeExpertCap_eq, hC, Option.bind_some, if_neg (not_lt.2 hmin), if_pos hret, hreshape]
    rfl

end

/-- **The cap, expert by expert.** For every routing to experts below `numExperts`, every weights of its
    shape and every capacity that is a 64-bit integer: below the minimum nothing changes; otherwise every
    expert keeps its first arrivals up to the capacity, the others are dropped, and a second cap drops the
    same. A negative capacity counts as none. -/
theorem expertCap_of_capacity (topkIds : Tensor2 ℤ) (topkWeights : Tensor2 W) (numExperts : ℕ)
    (capacityFactor : Float.Model) (count : Bool) (minCapacity : ℤ)
    (hids : ∀ e ∈ topkIds.data, 0 ≤ e ∧ e < numExperts)
    (hshape : topkWeights.rows = topkIds.rows ∧ topkWeights.cols = topkIds.cols) {C : ℤ}
    (hC : capacity capacityFactor (topkIds.rows * topkIds.cols) numExperts = some C)
    (hfit : -2 ^ 63 ≤ C ∧ C < 2 ^ 63) :
    (C < minCapacity → moeExpertCap topkIds topkWeights numExperts capacityFactor count minCapacity
        = some (topkWeights, if count then some 0 else none)) ∧
      (minCapacity ≤ C → ∃ w : Tensor2 W, ∃ dropped : Option ℕ,
        moeExpertCap topkIds topkWeights numExperts capacityFactor count minCapacity = some (w, dropped) ∧
          w.rows = topkIds.rows ∧ w.cols = topkIds.cols ∧
          ExpertsCapped C.toNat numExperts topkIds.data topkWeights.data w.data ∧
          dropped = (if count then
            some (∑ e ∈ Finset.range numExperts, (topkIds.data.count (e : ℤ) - C.toNat)) else none) ∧
          moeExpertCap topkIds w numExperts capacityFactor count minCapacity = some (w, dropped)) := by
  have hlen : topkWeights.data.length = topkIds.data.length := by
    rw [topkWeights.size, topkIds.size, hshape.1, hshape.2]
  constructor
  · intro hmin
    rw [moeExpertCap_eq, hC, Option.bind_some, if_pos hmin]
  · intro hmin
    obtain ⟨w, hw⟩ : ∃ w, reshape (cappedWeights C topkIds.data topkWeights.data) topkIds.rows topkIds.cols
        = some w := by
      rw [reshape, dif_pos (by rw [length_cappedWeights, hlen, topkIds.size])]
      exact ⟨_, rfl⟩
    have hrun : moeExpertCap topkIds topkWeights numExperts capacityFactor count minCapacity
        = some (w, if count then some (droppedSlots C topkIds.data) else none) := by
      rw [moeExpertCap_eq, hC, Option.bind_some, if_neg (not_lt.2 hmin), if_pos ⟨hids, hfit⟩, hw]
      rfl
    obtain ⟨hdata, hrows, hcols⟩ := reshape_eq_some.1 hw
    refine ⟨w, _, hrun, hrows, hcols, ?_, ?_, moeExpertCap_again hrun⟩
    · rw [hdata]
      exact expertsCapped_cappedWeights C hlen hids
    · rw [droppedSlots_eq hids]

/-- A tensor of one slot a row. -/
def Tensor2.column {α : Type} (xs : List α) : Tensor2 α := ⟨xs.length, 1, xs, (Nat.mul_one _).symm⟩

/-- Four slots, three of them of expert 0, for a capacity of two. -/
theorem expertCap_of_capacity_hot : ∃ w : Tensor2 ℕ, ∃ dropped : Option ℕ,
    moeExpertCap (Tensor2.column [0, 0, 0, 1]) (Tensor2.column [5, 6, 7, 8]) 2 (.ofNat 1) true 1
        = some (w, dropped) ∧
      ExpertsCapped 2 2 [0, 0, 0, 1] [5, 6, 7, 8] w.data ∧ dropped = some 1 := by
  obtain ⟨w, dropped, hrun, -, -, hcapped, hdropped, -⟩ :=
    (expertCap_of_capacity (Tensor2.column [0, 0, 0, 1]) (Tensor2.column ([5, 6, 7, 8] : List ℕ)) 2
      (.ofNat 1) true 1 (by decide)
      ⟨rfl, rfl⟩ (C := 2) (by decide) (by decide)).2 (by decide)
  exact ⟨w, dropped, hrun, hcapped, hdropped.trans (by decide)⟩

/-! ## The capacity is not a floor -/

/-- The number that a double stands for. -/
def floatValue (x : Float.Model) : ℚ :=
  match x.unpack with
  | .finite s m e _ => (s.apply m : ℚ) * 2 ^ e
  | _ => 0

/-- The floor of the exact `factor * slots / numExperts`. -/
def floorCapacity (factor : Float.Model) (slots numExperts : ℕ) : ℤ :=
  ⌊floatValue factor * slots / numExperts⌋

/-- A factor of `-0.5`: the floor `-1` is below the minimum 0, but the capacity is cut to 0 and the slot is
    dropped. A factor of `0.7` (a double slightly below) on 20 slots: the floor is 13, but the product is
    rounded up to 14 and the fourteenth slot is kept. -/
theorem expertCap_not_floor :
    (floorCapacity (-.ofScientific 5 (-1)) 1 1 < 0 ∧
        moeExpertCap (Tensor2.column [0]) (Tensor2.column ([7] : List ℕ)) 1 (-.ofScientific 5 (-1)) true 0
          ≠ some (Tensor2.column [7], some 0)) ∧
      floorCapacity (.ofScientific 7 (-1)) 20 1 = 13 ∧
        (moeExpertCap (Tensor2.column (List.replicate 20 0)) (Tensor2.column (List.replicate 20 (7 : ℕ))) 1
          (.ofScientific 7 (-1)) true 8).map (fun r => (r.1.data.getD 13 0, r.2)) = some (7, some 6) := by
  decide +kernel

end SchedPass
