import SchedPass.Plane.Consistent
import SchedPass.Weave.Policy
import SchedPass.WorkQueue.Driver

set_option autoImplicit false

/-! # The zero plane

`SchedArena` hands out its mapping filled with zeros. A kernel baked against it finds every slot armed,
so what keeps it stock is the zeros themselves: a zero `num_tasks` sends the driver down its stock
path and lets it accept no table entry, a zero row sets no flag, and a zero `tau` is no cap. The plain
weave's remap has no such guard. A zero stamp leaves the table unchecked, and a zero entry is inside
every grid, so all blocks that the table covers run task 0 (`zero_plane_stock_iff`). -/

namespace SchedPass

/-- The order table's and the control block's window hold zeros. -/
def ZeroTables (base : ℕ) (m : ByteMem) : Prop :=
  ∀ a, base + orderOff ≤ a → a < base + timerOff → m a = 0

/-- A block is stock: its task is its own index, it has no policy flag, its masks keep every iteration,
    and its driver runs the body once, for its own index. A masked loop is the width of its induction
    variable and its trip count. -/
structure StockBlock (useCLC : Bool) (C : WeaveConfig) (R : RtSlots) (m : ByteMem)
    (loops : List (ℕ × ℕ)) (nctaid ctaid : Dim3) : Prop where
  task : weaveTask C.toConfig R m (nctaidIntrinsic C.slotAxis nctaid)
      (ctaidIntrinsic C.slotAxis ctaid) = ctaidIntrinsic C.slotAxis ctaid
  flags : emitPolicyFlags C R m (ctaidIntrinsic C.slotAxis ctaid) = { urgent := false, polite := false }
  masks : C.shed = true → ∀ loop ∈ loops, ∀ i < loop.2,
    shedKeep loop.1 (emitBudget C R m (ctaidIntrinsic C.slotAxis ctaid)) i = true
  driver : dispatch useCLC C.toConfig R m nctaid ctaid = .stock (ctaidIntrinsic C.slotAxis ctaid) ∧
    stockTask C.toConfig R m (ctaidIntrinsic C.slotAxis ctaid) = ctaidIntrinsic C.slotAxis ctaid

variable {C : WeaveConfig} {p : SchedPlane} {m : ByteMem}

/-! ## What a zero plane reads as -/

theorem ZeroTables.load_eq_zero (hzero : ZeroTables p.base m) {off w : ℕ} (h : off + w ≤ timerOff) :
    m.load (p.base + off) w = 0 :=
  ByteMem.load_eq_zero fun a hle hlt => hzero a (by rw [orderOff]; omega) (by omega)

section

variable (hbase : 0 < p.base) (hN : p.N ≤ maxTasksLimit) (hC : p.Bakes C.toConfig)
  (hzero : ZeroTables p.base m)

include hbase hzero

theorem zero_numTasks : loadNumTasks m p.slots.ctrl.base = 0 := by
  rw [loadNumTasks, SchedPlane.base_ctrl hbase, Nat.add_assoc]
  exact hzero.load_eq_zero (by decide)

theorem zero_orderSize : loadOrderSize m p.slots.ctrl.base = 0 := by
  rw [loadOrderSize, SchedPlane.base_ctrl hbase, Nat.add_assoc]
  exact hzero.load_eq_zero (by decide)

include hN hC

/-- The rows of all tasks lie in the control window. -/
theorem zero_row {task off w : ℕ} (htask : task < C.maxTasks) (hoff : off + w ≤ kCtrlRowSize) :
    m.load (p.slots.ctrl.base + (rowOff task + off)) w = 0 := by
  have hmax : C.maxTasks = p.N := hC.maxTasks
  rw [SchedPlane.base_ctrl hbase, Nat.add_assoc]
  refine hzero.load_eq_zero ?_
  unfold rowOff
  simp only [kCtrlRowSize, kCtrlRowsOff, ctrlOff, timerOff, maxTasksLimit] at *
  omega

theorem zero_tau (task : ℕ) : emitBudget C p.slots m task = noCap := by
  have hctrl : p.slots.ctrl.Armed := RtSlot.armed_baked (by omega)
  by_cases htask : task < C.maxTasks
  · have htau : loadTau m p.slots.ctrl.base task = 0 := zero_row hbase hN hC hzero htask (by decide)
    rw [emitBudget_of_armed hctrl htask, htau, capOf_zero]
  · exact emitBudget_of_le (not_lt.1 htask)

theorem zero_flags (hH : Float.Model.ofBits 0 ≤ C.H) (task : ℕ) :
    emitPolicyFlags C p.slots m task = { urgent := false, polite := false } := by
  by_cases htask : task < C.maxTasks
  · refine emitPolicyFlags_of_zero hH ?_ ?_ (zero_row hbase hN hC hzero htask (by decide))
    · rw [SchedPlane.base_ctrl hbase, Nat.add_assoc]
      exact hzero.load_eq_zero (by decide)
    · rw [← Nat.add_zero (rowOff task)]
      exact zero_row hbase hN hC hzero htask (by decide)
  · exact emitPolicyFlags_of_le (not_lt.1 htask)

/-- Every table entry is 0, which is inside the grid, and the stamp is unchecked. -/
theorem zero_task (hdirect : C.orderIndirect = false) {g pid : ℕ} (hpid : pid < g) :
    weaveTask C.toConfig p.slots m g pid =
      if C.indirect = true ∧ pid < C.maxTasks then 0 else pid := by
  have horder : p.slots.taskOrder.Armed := RtSlot.armed_baked (by omega)
  have hctrl : p.slots.ctrl.Armed := RtSlot.armed_baked (by omega)
  have hmax : C.maxTasks = p.N := hC.maxTasks
  cases hind : C.indirect with
  | false => simp [weaveTask, hind]
  | true =>
      rw [weaveTask, hind, horder.available, Bool.and_self, if_pos rfl,
        emitRemap_eq_clampBelow horder hctrl (Or.inl (zero_orderSize hbase hzero))]
      by_cases hlt : pid < C.maxTasks
      · have hentry : orderEntry C.toConfig m p.slots.taskOrder.base pid = 0 := by
          rw [orderEntry, hdirect, if_neg Bool.false_ne_true, tableWord, SchedPlane.base_order hbase,
            Nat.add_assoc]
          refine hzero.load_eq_zero ?_
          simp only [orderOff, timerOff, maxTasksLimit] at *
          omega
        rw [if_pos hlt, if_pos ⟨rfl, hlt⟩, hentry, clampBelow, if_pos (by omega)]
      · rw [if_neg hlt, if_neg fun h => hlt h.2]

end

/-! ## Stock launches -/

/-- **A launch against a zero plane is stock exactly when the remap has nothing to mix up and no counter
    reaches its largest value**: the remap is not built in, or the table covers at most one block of
    the grid; and with masks, every masked loop has a counter of fewer than 32 bits or fewer than
    2 ^ 32 trips. -/
theorem zero_plane_stock_iff (useCLC : Bool) (C : WeaveConfig) (p : SchedPlane) (m : ByteMem)
    (loops : List (ℕ × ℕ)) (nctaid : Dim3) (hgrid : 0 < nctaidIntrinsic C.slotAxis nctaid)
    (hbase : 0 < p.base) (hN : p.N ≤ maxTasksLimit) (hC : p.Bakes C.toConfig)
    (hdirect : C.orderIndirect = false) (hH : Float.Model.ofBits 0 ≤ C.H)
    (hzero : ZeroTables p.base m) :
    (∀ ctaid, ctaidIntrinsic C.slotAxis ctaid < nctaidIntrinsic C.slotAxis nctaid →
        StockBlock useCLC C p.slots m loops nctaid ctaid) ↔
      (C.indirect = true → min (nctaidIntrinsic C.slotAxis nctaid) C.maxTasks ≤ 1) ∧
        (C.shed = true → ∀ loop ∈ loops, loop.1 < 32 ∨ loop.2 < 2 ^ 32) := by
  have hblock : ∀ k, ctaidIntrinsic C.slotAxis ⟨k, k, k⟩ = k := by
    intro k
    rw [ctaidIntrinsic]
    cases axisOf C.slotAxis <;> rfl
  constructor
  · intro h
    constructor
    · intro hind
      by_contra hle
      obtain ⟨hg, hmax⟩ := lt_min_iff.1 (not_le.1 hle)
      -- block 1 runs task 0
      have htask := (h ⟨1, 1, 1⟩ (by rwa [hblock])).task
      rw [hblock, zero_task hbase hN hC hzero hdirect hg, if_pos ⟨hind, hmax⟩] at htask
      exact absurd htask Nat.zero_ne_one
    · intro hshed loop hloop
      have hmasks := (h ⟨0, 0, 0⟩ (by rwa [hblock])).masks hshed loop hloop
      rw [zero_tau hbase hN hC hzero] at hmasks
      exact shedKeep_noCap_iff.1 hmasks
  · rintro ⟨hind, hloops⟩ ctaid hlt
    refine ⟨?_, zero_flags hbase hN hC hzero hH _, fun hshed loop hloop => ?_,
      dispatch_of_disarmed useCLC nctaid ctaid (zero_numTasks hbase hzero),
      stockTask_of_disarmed (zero_numTasks hbase hzero) _⟩
    · rw [zero_task hbase hN hC hzero hdirect hlt]
      split
      · next hremap =>
          have := hind hremap.1
          omega
      · rfl
    · rw [zero_tau hbase hN hC hzero]
      exact shedKeep_noCap_iff.2 (hloops hshed loop hloop)

/-- A grid of one block. -/
theorem zero_plane_stock_iff_single :
    StockBlock false {} ({ N := 4096, base := 4096 } : SchedPlane).slots ByteMem.zeroed [(32, 1000)]
      ⟨1, 1, 1⟩ ⟨0, 0, 0⟩ :=
  (zero_plane_stock_iff false {} { N := 4096, base := 4096 } ByteMem.zeroed [(32, 1000)] ⟨1, 1, 1⟩
    (by decide) (by decide) (by decide) ⟨rfl, rfl⟩ rfl (by decide) (fun _ _ _ => rfl)).2
    ⟨by decide, by decide⟩ ⟨0, 0, 0⟩ (by decide)

/-- A grid of two blocks: block 1 runs task 0. -/
theorem zero_plane_moves_block :
    weaveTask {} ({ N := 4096, base := 4096 } : SchedPlane).slots ByteMem.zeroed 2 1 = 0 ∧
      ¬ StockBlock false {} ({ N := 4096, base := 4096 } : SchedPlane).slots ByteMem.zeroed []
        ⟨2, 1, 1⟩ ⟨1, 0, 0⟩ := by
  have htask : weaveTask {} ({ N := 4096, base := 4096 } : SchedPlane).slots ByteMem.zeroed 2 1 = 0 := by
    decide
  exact ⟨htask, fun h => absurd (htask.symm.trans h.task) (by decide)⟩

end SchedPass
