import SchedPass.Controller.Hysteresis
import SchedPass.Lib.ListScheduling
import SchedPass.Plane.OrderShape

set_option autoImplicit false

/-! # How good the orders are

The blocks of a launch are handed out in the order of the table, each to the worker that is free first.
Whatever the block size and the split of `region_order`, the tiles are done within `2 - 1 / workers` times
the least possible time, and no later than their average and most of the longest tile; per-tile LPT is
within `4 / 3 - 1 / (3 * workers)` (`regionOrder_makespan`). The tiles last as long as their float32 costs
say: costs that `.float()` rounds to one number are not told apart. The controller's LPT orders come with
the same bounds in every run (`lpt_makespan`). -/

namespace SchedPass

variable {C K : Type}

section

variable [Field K] [LinearOrder K] [IsStrictOrderedRing K]

omit [LinearOrder K] [IsStrictOrderedRing K] in
/-- The costs in a permuted order. -/
theorem costs_perm {cost : List K} {order : List ℕ} (h : order.Perm (List.range cost.length)) :
    (order.map fun i => cost.getD i 0).Perm cost := by
  have hself : (List.range cost.length).map (fun i => cost.getD i 0) = cost :=
    map_range_getD cost 0 fun _ _ => rfl
  conv_rhs => rw [← hself]
  exact h.map _

/-- When the tiles of an order are done. -/
def tileMakespan (workers : ℕ) (cost : List K) (order : List ℕ) : K :=
  makespan workers (order.map fun i => cost.getD i 0)

/-- An order of the tiles that is done no later than their average and most of the longest tile, and
    within `2 - 1 / workers` times any time that they can be done in. -/
structure WellSpread (workers : ℕ) (cost : List K) (order : List ℕ) : Prop where
  perm : order.Perm (List.range cost.length)
  average : ∀ longest, 0 ≤ longest → (∀ t ∈ cost, t ≤ longest) →
    tileMakespan workers cost order ≤ (cost.sum + (workers - 1) * longest) / workers
  ratio : ∀ c, Fits workers cost c → tileMakespan workers cost order ≤ (2 - 1 / workers) * c

/-- An order that is done within `4 / 3 - 1 / (3 * workers)` times any time that the tiles can be done
    in. -/
def NearlyEven (workers : ℕ) (cost : List K) (order : List ℕ) : Prop :=
  ∀ c, Fits workers cost c → tileMakespan workers cost order ≤ (4 / 3 - 1 / (3 * workers)) * c

variable {workers : ℕ} {cost : List K} {order : List ℕ}

theorem wellSpread_of_perm (hpos : 0 < workers) (hnonneg : ∀ t ∈ cost, 0 ≤ t)
    (hperm : order.Perm (List.range cost.length)) : WellSpread workers cost order where
  perm := hperm
  average longest hlongest hle := by
    have hcosts := costs_perm hperm
    rw [← hcosts.sum_eq]
    exact makespan_le_average hpos (fun t ht => hnonneg t (hcosts.subset ht)) hlongest fun t ht =>
      hle t (hcosts.subset ht)
  ratio _ hfits := makespan_le hpos (fun t ht => hnonneg t ((costs_perm hperm).subset ht))
    (hfits.perm (costs_perm hperm).symm)

theorem nearlyEven_of_descending (hpos : 0 < workers) (hnonneg : ∀ t ∈ cost, 0 ≤ t)
    (hperm : order.Perm (List.range cost.length))
    (hdesc : order.Pairwise fun i j => cost.getD j 0 ≤ cost.getD i 0) :
    NearlyEven workers cost order := fun _ hfits =>
  makespan_descending_le hpos (fun t ht => hnonneg t ((costs_perm hperm).subset ht))
    (List.pairwise_map.2 hdesc) (hfits.perm (costs_perm hperm).symm)

/-- **The plane's orders.** For every number of workers, block size and split, and however torch adds up
    the blocks, `region_order` spreads tiles of the float32 costs well, and nearly evenly where it is plain
    LPT. -/
theorem regionOrder_makespan {argsort : List K → List ℕ} (hsort : SortsDescending argsort) (float : C → K)
    (blockSum : List K → K) (cost : List C) (block R : ℤ) (hpos : 0 < workers)
    (hnonneg : ∀ t ∈ cost.map float, 0 ≤ t) :
    WellSpread workers (cost.map float) (regionOrder float blockSum argsort block cost R) ∧
      ((R ≤ 0 ∨ (cost.length : ℤ) ≤ R) → (block ≤ 1 ∨ (cost.length : ℤ) ≤ block) →
        NearlyEven workers (cost.map float) (regionOrder float blockSum argsort block cost R)) := by
  have hlength : (cost.map float).length = cost.length := List.length_map float
  have hperm : (regionOrder float blockSum argsort block cost R).Perm
      (List.range (cost.map float).length) :=
    hlength ▸ regionOrder_perm hsort.perm float blockSum block cost R
  refine ⟨wellSpread_of_perm hpos hnonneg hperm, fun hR hblock => ?_⟩
  refine nearlyEven_of_descending hpos hnonneg hperm ?_
  simp only [regionOrder, groupedLpt, hlength, if_pos hR, if_pos hblock]
  exact hsort.sorted (cost.map float)

end

/-- The controller sorts as torch does. -/
theorem sortsDescending_lptOrder [Field K] [LinearOrder K] [IsStrictOrderedRing K] :
    SortsDescending fun t : List K => (SchedControlPlane.lptOrder t).indices where
  perm _ := SlotOrder.sortedBy_perm _ _
  sorted _ := (SlotOrder.sortedBy_pairwise _ _).imp fun h => neg_le_neg_iff.1 h

/-- Seven tiles on three workers, one tile at a time. -/
theorem regionOrder_makespan_seven :
    let tiles : List ℕ := [7, 3, 5, 5, 2, 4, 6]
    let float (n : ℕ) : ℚ := natOfF32 (Float32.Model.ofNat n)
    let order := regionOrder float List.sum (fun t => (SchedControlPlane.lptOrder t).indices) 1 tiles 0
    WellSpread 3 (tiles.map float) order ∧ NearlyEven 3 (tiles.map float) order := by
  intro tiles float order
  have hnonneg : ∀ t ∈ tiles.map float, 0 ≤ t := by
    intro t ht
    obtain ⟨n, -, rfl⟩ := List.mem_map.1 ht
    exact Nat.cast_nonneg _
  obtain ⟨hspread, heven⟩ := regionOrder_makespan sortsDescending_lptOrder float List.sum tiles 1 0
    (show 0 < 3 by norm_num) hnonneg
  exact ⟨hspread, heven (Or.inl le_rfl) (Or.inl le_rfl)⟩

namespace SchedControlPlane

variable {κ : Type} [Field K] [LinearOrder K]

theorem tHat_nonneg (m : SchedControlPlane κ K) (rids : List κ) (kvLens : List K) :
    ∀ t ∈ m.tHat rids kvLens, 0 ≤ t := by
  intro t ht
  obtain ⟨p, -, rfl⟩ := List.mem_map.1 ht
  exact le_max_right ..

/-- A returned order that spreads the costs `t` well, and nearly evenly unless it is the order `last`. -/
def Balanced (workers : ℕ) (t : List K) (last : SlotOrder) (result : Except OrderError SlotOrder) :
    Prop :=
  ∃ π, result = .ok π ∧ WellSpread workers t π.indices ∧
    (π ≠ last → NearlyEven workers t π.indices)

variable [IsStrictOrderedRing K]

theorem order_balanced {m : SchedControlPlane κ K} (hpolicy : m.policy = .lpt) {workers : ℕ}
    (hpos : 0 < workers) (rids : List κ) (kvLens : List K) (deadlines elapsed : Option (List K)) :
    Balanced workers (m.tHat rids kvLens) m.lastOrder (m.order rids kvLens deadlines elapsed).1 := by
  have hfresh := freshOrder_lpt hpolicy (m.tHat rids kvLens) deadlines elapsed
  have hnonneg := m.tHat_nonneg rids kvLens
  by_cases hdamped : m.Damped (m.tHat rids kvLens) (lptOrder (m.tHat rids kvLens))
  · rw [order_of_damped hfresh hdamped]
    have hperm := m.lastOrder.perm
    rw [hdamped.1] at hperm
    exact ⟨_, rfl, wellSpread_of_perm hpos hnonneg hperm, fun hne => absurd rfl hne⟩
  · rw [order_of_not_damped hfresh hdamped]
    have hperm := sortsDescending_lptOrder.perm (m.tHat rids kvLens)
    refine ⟨_, rfl, wellSpread_of_perm hpos hnonneg hperm, fun _ => ?_⟩
    exact nearlyEven_of_descending hpos hnonneg hperm (sortsDescending_lptOrder.sorted _)

/-- **The controller's orders.** In every run under LPT, whatever the dead-band keeps, `order` and `step`
    return permutations of the batch that spread the predicted costs well over any number of workers, and
    nearly evenly when the order is not the remembered one. -/
theorem lpt_makespan [DecidableEq κ] (ewma deadband : K) (calls : List (Call κ K)) (rids : List κ)
    (kvLens : List K) (cycles deadlines elapsed : Option (List K)) {workers : ℕ} (hpos : 0 < workers) :
    let m := (init .lpt ewma deadband).run calls
    Balanced workers (m.tHat rids kvLens) m.lastOrder (m.order rids kvLens deadlines elapsed).1 ∧
      Balanced workers ((m.observed rids kvLens cycles).tHat rids kvLens)
        (m.observed rids kvLens cycles).lastOrder
        ((m.step rids kvLens cycles deadlines elapsed).1.map Prod.fst) := by
  intro m
  have hconfig : (init .lpt ewma deadband : SchedControlPlane κ K).SameConfig m :=
    run_sameConfig _ calls
  have hconfig' := hconfig.trans (m.observed_sameConfig rids kvLens cycles)
  refine ⟨order_balanced hconfig.1 hpos rids kvLens deadlines elapsed, ?_⟩
  have hstep : (m.step rids kvLens cycles deadlines elapsed).1.map Prod.fst
      = ((m.observed rids kvLens cycles).order rids kvLens deadlines elapsed).1 := by
    simp only [step]
    cases ((m.observed rids kvLens cycles).order rids kvLens deadlines elapsed).1 <;> rfl
  rw [hstep]
  exact order_balanced hconfig'.1 hpos rids kvLens deadlines elapsed

/-- Two workers, after a batch of another length. -/
theorem lpt_makespan_two_workers :
    let m : SchedControlPlane ℕ ℚ := (init .lpt (1 / 4) (1 / 50)).run [.order [0, 1] [3, 5] none none]
    Balanced 2 (m.tHat [0, 1, 2] [2, 3, 1]) m.lastOrder (m.order [0, 1, 2] [2, 3, 1] none none).1 ∧
      Balanced 2 ((m.observed [0, 1, 2] [2, 3, 1] (some [9, 7, 8])).tHat [0, 1, 2] [2, 3, 1])
        (m.observed [0, 1, 2] [2, 3, 1] (some [9, 7, 8])).lastOrder
        ((m.step [0, 1, 2] [2, 3, 1] (some [9, 7, 8]) none none).1.map Prod.fst) :=
  lpt_makespan (1 / 4) (1 / 50) _ _ _ _ _ _ (by norm_num)

end SchedControlPlane

end SchedPass
