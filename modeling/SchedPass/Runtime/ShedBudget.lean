import Mathlib.Algebra.BigOperators.Ring.List
import Mathlib.Algebra.Order.BigOperators.Group.List
import Mathlib.Data.Nat.Count
import SchedPass.Plane.Consistent
import SchedPass.Runtime.HostRt
import SchedPass.Weave.Policy

set_option autoImplicit false

/-! # Shed budgets, from the host's setters to the loop

A host sets a task's `tau` with `sched_rt_set_task`, `sched_rt_set_tau` or `SchedPlane.set_row` and
publishes the control block; a kernel launched then reads it back as the task's budget
(`TauInstalled.budget`). The masks compare the budget with the counter of the innermost loop around the
load, which starts again at 0 whenever the loop is entered. So `tau` bounds what one execution of the
innermost loop keeps, and a nest keeps up to `tau` for each (`tau_bounds_innermost_loops`). -/

namespace SchedPass

/-! ## The host's setters -/

namespace SchedRt

/-- `sizeof(SchedCtrl)`. -/
def ctrlSize (maxTasks : ℕ) : ℕ := kCtrlRowsOff + kCtrlRowSize * maxTasks

/-- `sched_rt_set_task`; `q` is the bit pattern of the row's float. -/
def setTask (maxTasks : ℕ) (s : SchedRt) (i q tau hint : ℕ) : SchedRt :=
  if i ≥ maxTasks then s
  else
    let row := ByteMem.toBytes 4 q ++ ByteMem.toBytes 2 tau
      ++ (ByteMem.toBytes 1 hint ++ ByteMem.toBytes 1 0)
    { s with hCtrl := s.hCtrl.store (rowOff i) row }

/-- `sched_rt_set_tau`. -/
def setTau (maxTasks : ℕ) (s : SchedRt) (i tau : ℕ) : SchedRt :=
  if i < maxTasks then
    { s with hCtrl := s.hCtrl.store (rowOff i + kCtrlRowTauOff) (ByteMem.toBytes 2 tau) }
  else
    s

/-- `sched_rt_push_ctrl` whose copy succeeds, with the device memory behind it. -/
def pushCtrl (maxTasks : ℕ) (s : SchedRt) (m : ByteMem) : SchedRt × ByteMem :=
  let hCtrl := s.hCtrl.store 0 (ByteMem.toBytes 4 (s.hCtrl.load32 0 + 1))
  ({ s with hCtrl := hCtrl }, m.store s.dCtrl (hCtrl.slice 0 (ctrlSize maxTasks)))

end SchedRt

/-- `m` is a memory in which `task`'s row has just been given `tau`, by one of the three setters, and
    published to the control block that a kernel with slots `R` reads. -/
inductive TauInstalled (C : WeaveConfig) (task tau : ℕ) : RtSlots → ByteMem → Prop
  | setTask {R : RtSlots} (s : SchedRt) (q hint : ℕ) (m : ByteMem) (harmed : R.ctrl.Armed)
      (hctrl : R.ctrl.base = s.dCtrl) :
      TauInstalled C task tau R ((s.setTask C.maxTasks task q tau hint).pushCtrl C.maxTasks m).2
  | setTau {R : RtSlots} (s : SchedRt) (m : ByteMem) (harmed : R.ctrl.Armed)
      (hctrl : R.ctrl.base = s.dCtrl) :
      TauInstalled C task tau R ((s.setTau C.maxTasks task tau).pushCtrl C.maxTasks m).2
  | setRow {p p₁ p₂ : SchedPlane} (q hint : ℕ) (m : ByteMem) {ops : List MemOp} (hbase : 0 < p.base)
      (hC : p.Bakes C.toConfig) (hset : p.setRow task q tau hint = some p₁)
      (hpush : p₁.push = some (p₂, ops)) : TauInstalled C task tau p.slots (applyOps m ops)

/-! ## Reading a row back -/

theorem load_row_tau (m : ByteMem) (a q tau : ℕ) (rest : List UInt8) :
    (m.store a (ByteMem.toBytes 4 q ++ ByteMem.toBytes 2 tau ++ rest)).load (a + 4) 2
      = tau % 2 ^ 16 := by
  have hq : (a + 4) + 2 ≤ a ∨ a + (ByteMem.toBytes 4 q).length ≤ a + 4 := by
    right
    rw [ByteMem.length_toBytes]
  rw [List.append_assoc, ByteMem.store_append, ByteMem.load_store_of_disjoint _ _ _ hq,
    ByteMem.length_toBytes, ByteMem.store_append]
  exact ByteMem.load_store_toBytes _ (a + 4) 2 tau

/-- A push copies all of the mirror behind its first word. -/
theorem SchedRt.load_pushCtrl {maxTasks : ℕ} (s : SchedRt) (m : ByteMem) {off w : ℕ} (hlo : 4 ≤ off)
    (hhi : off + w ≤ ctrlSize maxTasks) :
    (s.pushCtrl maxTasks m).2.load (s.dCtrl + off) w = s.hCtrl.load off w := by
  have hgen : off + w ≤ 0 ∨ 0 + (ByteMem.toBytes 4 (s.hCtrl.load32 0 + 1)).length ≤ off := by
    right
    rw [ByteMem.length_toBytes]
    omega
  rw [pushCtrl, ByteMem.load_store_slice _ _ _ _ hhi, Nat.zero_add,
    ByteMem.load_store_of_disjoint _ _ _ hgen]

theorem SchedPlane.load_push {p p' : SchedPlane} {ops : List MemOp} (hpush : p.push = some (p', ops))
    (m : ByteMem) {off w : ℕ} (hlo : 4 ≤ off) (hhi : off + w ≤ p.ctrlBytes) :
    (applyOps m ops).load (p.base + ctrlOff + off) w = p.ctrlHost.load off w := by
  obtain ⟨host, hpack, heq⟩ := Option.map_eq_some_iff.1 hpush
  cases heq
  have hmirror : host.load off w = p.ctrlHost.load off w := by
    obtain ⟨-, rfl⟩ := packU32_eq_some hpack
    refine ByteMem.load_store_of_disjoint _ _ _ (Or.inr ?_)
    rw [ByteMem.length_toBytes]
    omega
  have hgen : p.base + ctrlOff + (host.slice 0 4).length ≤ p.base + ctrlOff + off := by
    rw [ByteMem.length_slice]
    omega
  have hsplit : p.base + ctrlOff + off = p.base + ctrlOff + 4 + (off - 4) := by omega
  have hback : 4 + (off - 4) = off := by omega
  show ((m.store _ _).store _ _).load _ _ = _
  rw [ByteMem.load_store_of_disjoint _ _ _ (Or.inr hgen), hsplit,
    ByteMem.load_store_slice m host _ 4 (by omega), hback, hmirror]

variable {C : WeaveConfig} {R : RtSlots} {m : ByteMem} {task tau : ℕ}

theorem TauInstalled.armed (h : TauInstalled C task tau R m) : R.ctrl.Armed := by
  cases h with
  | setTask s q hint m harmed hctrl => exact harmed
  | setTau s m harmed hctrl => exact harmed
  | setRow q hint m hbase hC hset hpush => exact RtSlot.armed_baked (by omega)

/-- The kernel loads what the setter was given, as 16 bits. -/
theorem TauInstalled.loadTau (h : TauInstalled C task tau R m) (htask : task < C.maxTasks) :
    loadTau m R.ctrl.base task = tau % 2 ^ 16 := by
  have hrow : rowOff task + kCtrlRowTauOff + 2 ≤ SchedRt.ctrlSize C.maxTasks := by
    simp only [rowOff, kCtrlRowTauOff, kCtrlRowSize, kCtrlRowsOff, SchedRt.ctrlSize]
    omega
  have hlo : 4 ≤ rowOff task + kCtrlRowTauOff := Nat.le_add_left 4 _
  cases h with
  | setTask s q hint m harmed hctrl =>
      have hne : ¬ task ≥ C.maxTasks := not_le.2 htask
      have hd : (s.setTask C.maxTasks task q tau hint).dCtrl = s.dCtrl := by
        rw [SchedRt.setTask, if_neg hne]
      rw [SchedPass.loadTau, hctrl, ← hd, SchedRt.load_pushCtrl _ _ hlo hrow, SchedRt.setTask,
        if_neg hne]
      exact load_row_tau _ _ _ _ _
  | setTau s m harmed hctrl =>
      have hd : (s.setTau C.maxTasks task tau).dCtrl = s.dCtrl := by
        rw [SchedRt.setTau, if_pos htask]
      rw [SchedPass.loadTau, hctrl, ← hd, SchedRt.load_pushCtrl _ _ hlo hrow, SchedRt.setTau,
        if_pos htask]
      exact ByteMem.load_store_toBytes _ _ 2 tau
  | @setRow p p₁ p₂ q hint m ops hbase hC hset hpush =>
      have hN : C.maxTasks = p.N := hC.maxTasks
      have hbytes : p.ctrlBytes = SchedRt.ctrlSize C.maxTasks := by rw [hN]; rfl
      have hoff : ctrlRowsOff + rowSize * task = rowOff task := by
        simp only [ctrlRowsOff, rowSize, rowOff, kCtrlRowSize, kCtrlRowsOff]
        omega
      rw [SchedPlane.setRow] at hset
      split at hset
      · cases hset
        rw [SchedPass.loadTau, SchedPlane.base_ctrl hbase]
        refine (SchedPlane.load_push hpush m hlo (hrow.trans_eq hbytes.symm)).trans ?_
        rw [hoff]
        exact load_row_tau _ _ _ _ _
      · cases hset

/-- **A task's budget is the `tau` it was given.** -/
theorem TauInstalled.budget (h : TauInstalled C task tau R m) (htask : task < C.maxTasks)
    (hpos : 0 < tau) (htau : tau < 2 ^ 16) : emitBudget C R m task = tau := by
  rw [emitBudget_of_armed h.armed htask, h.loadTau htask, Nat.mod_eq_of_lt htau, capOf_of_pos hpos]

/-! ## Loop nests -/

/-- What a task runs of a loop nest of the given depth: the trip count of its innermost loop, or the
    iterations of an outer loop. -/
def Nest : ℕ → Type
  | 0 => ℕ
  | d + 1 => List (Nest d)

namespace Nest

/-- Add up a number over all executions of the innermost loop. -/
def sum (f : ℕ → ℕ) : (d : ℕ) → Nest d → ℕ
  | 0, trips => f trips
  | d + 1, iterations => (List.map (sum f d) iterations).sum

/-- The iterations that a mask keeps, over the whole nest. -/
def kept (width budget d : ℕ) : Nest d → ℕ :=
  sum (fun trips => Nat.count (fun i => shedKeep width budget i = true) trips) d

/-- How often the counter starts at 0: once for each execution of the innermost loop, and again each
    time it runs over. -/
def passes (width d : ℕ) : Nest d → ℕ :=
  sum (fun trips => (trips + (counterRange width - 1)) / counterRange width) d

theorem sum_le_mul {f g : ℕ → ℕ} {c : ℕ} (h : ∀ n, f n ≤ c * g n) (d : ℕ) (nest : Nest d) :
    sum f d nest ≤ c * sum g d nest := by
  induction d with
  | zero => exact h nest
  | succ d ih =>
      have hiterations : ∀ iterations : List (Nest d),
          (iterations.map (sum f d)).sum ≤ c * (iterations.map (sum g d)).sum := by
        intro iterations
        rw [← List.sum_map_mul_left]
        exact List.sum_le_sum fun iteration _ => ih iteration
      exact hiterations nest

end Nest

/-! ## What one loop keeps -/

/-- One pass of the counter: the mask keeps the iterations below the budget. -/
theorem count_keep_pass {width budget n : ℕ} (h : n ≤ counterRange width) :
    Nat.count (fun i => shedKeep width budget i = true) n = min n budget := by
  induction n with
  | zero => rw [Nat.count_zero, Nat.zero_min]
  | succ n ih =>
      rw [Nat.count_succ, ih (by omega), shedKeep_of_lt h budget]
      split <;> simp only [decide_eq_true_eq] at * <;> omega

/-- A loop keeps at most the budget in each pass of its counter. -/
theorem count_keep_passes (width budget q : ℕ) :
    Nat.count (fun i => shedKeep width budget i = true) (counterRange width * q) ≤ budget * q := by
  induction q with
  | zero => simp
  | succ q ih =>
      have hperiod : ∀ k, shedKeep width budget (counterRange width * q + k) = shedKeep width budget k := by
        intro k
        rw [shedKeep, shedKeep, shedCounter_eq_mod, shedCounter_eq_mod, Nat.mul_add_mod]
      rw [Nat.mul_succ, Nat.mul_succ, Nat.count_add]
      simp only [hperiod]
      rw [count_keep_pass (le_refl _)]
      omega

theorem count_keep_le (width budget n : ℕ) :
    Nat.count (fun i => shedKeep width budget i = true) n
      ≤ budget * ((n + (counterRange width - 1)) / counterRange width) := by
  have hpos := counterRange_pos width
  have hcover : n ≤ counterRange width * ((n + (counterRange width - 1)) / counterRange width) := by
    have := Nat.lt_mul_div_succ (n + (counterRange width - 1)) hpos
    rw [Nat.mul_succ] at this
    omega
  exact (Nat.count_monotone _ hcover).trans (count_keep_passes width budget _)

/-- **`tau` bounds what each execution of the innermost loop keeps.** A task whose row was given `tau`
    keeps at most `tau` iterations of a masked loop for each pass of the loop's counter, in a nest of any
    depth; a loop that its counter can count keeps its first `tau`. -/
theorem tau_bounds_innermost_loops {C : WeaveConfig} {R : RtSlots} {m : ByteMem} {task tau : ℕ}
    (hset : TauInstalled C task tau R m) (htask : task < C.maxTasks) (hpos : 0 < tau)
    (htau : tau < 2 ^ 16) (width : ℕ) :
    (∀ d (nest : Nest d), nest.kept width (emitBudget C R m task) d ≤ tau * nest.passes width d) ∧
      ∀ trips ≤ counterRange width,
        Nest.kept width (emitBudget C R m task) 0 trips = min trips tau ∧
          ∀ i < trips, shedKeep width (emitBudget C R m task) i = decide (i < tau) := by
  rw [hset.budget htask hpos htau]
  refine ⟨fun d nest => Nest.sum_le_mul (count_keep_le width tau) d nest, fun trips htrips => ?_⟩
  exact ⟨count_keep_pass htrips, fun i hi => shedKeep_of_lt (hi.trans_le htrips) tau⟩

/-- Task 0 of a table of one row, with `tau` = 1. -/
theorem tauInstalled_one :
    TauInstalled { maxTasks := 1 } 0 1 { taskOrder := {}, ctrl := { global := some 4096 } }
      ((({ dCtrl := 4096 } : SchedRt).setTau 1 0 1).pushCtrl 1 ByteMem.zeroed).2 :=
  .setTau { dCtrl := 4096 } ByteMem.zeroed rfl rfl

/-- A nest of two pages of two tokens, and one of the pages. -/
theorem tau_bounds_innermost_loops_pages :
    let budget := emitBudget { maxTasks := 1 } { taskOrder := {}, ctrl := { global := some 4096 } }
      ((({ dCtrl := 4096 } : SchedRt).setTau 1 0 1).pushCtrl 1 ByteMem.zeroed).2 0
    Nest.kept 32 budget 1 [(2 : ℕ), (2 : ℕ)] ≤ 1 * Nest.passes 32 1 [(2 : ℕ), (2 : ℕ)] ∧
      Nest.passes 32 1 [(2 : ℕ), (2 : ℕ)] = 2 ∧ Nest.kept 32 budget 0 (2 : ℕ) = 1 := by
  intro budget
  obtain ⟨hnest, hloop⟩ :=
    tau_bounds_innermost_loops tauInstalled_one (by decide) (by decide) (by decide) 32
  exact ⟨hnest 1 [(2 : ℕ), (2 : ℕ)], by decide, (hloop 2 (by decide)).1⟩

/-- Two pages of two tokens under `tau` = 1: the masks keep a token of each page. -/
theorem two_pages_keep_two :
    TauInstalled { maxTasks := 1 } 0 1 { taskOrder := {}, ctrl := { global := some 4096 } }
        ((({ dCtrl := 4096 } : SchedRt).setTau 1 0 1).pushCtrl 1 ByteMem.zeroed).2 ∧
      Nest.kept 32 (emitBudget { maxTasks := 1 }
        { taskOrder := {}, ctrl := { global := some 4096 } }
        ((({ dCtrl := 4096 } : SchedRt).setTau 1 0 1).pushCtrl 1 ByteMem.zeroed).2 0) 1
          [(2 : ℕ), (2 : ℕ)] = 2 := by
  refine ⟨tauInstalled_one, ?_⟩
  rw [tauInstalled_one.budget (by decide) (by decide) (by decide)]
  decide

end SchedPass
