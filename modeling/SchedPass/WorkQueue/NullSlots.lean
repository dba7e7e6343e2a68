import SchedPass.Runtime.HostRt
import SchedPass.Weave.NullSlots
import SchedPass.WorkQueue.Driver

set_option autoImplicit false

/-! # Null slots in the work-queue driver

The driver of one CTA, with every access through a slot checked as in `Weave/NullSlots.lean`. The
entry block tests the armed flags of the control block and of the ticket counter before it loads
`num_tasks`, and the claim loop runs only behind that test. The stock path runs precisely when the
test fails, and its remap loads `num_tasks` and the stamp from the control block all the same: with an
order table and no control block it goes through a null pointer (`null_slots_stock_iff`). A host that
arms its slots one at a time can be left with just that. -/

namespace SchedPass

/-! ## The emitted code, checked -/

def checkedNumTasks (R : RtSlots) (m : ByteMem) : Option ℕ :=
  through (rtBuffer R.ctrl).1 (getNumTasks R m)

def checkedOrderRemap (C : Config) (R : RtSlots) (m : ByteMem) (raw : ℕ) : Option ℕ :=
  if !rtAvailable R.taskOrder || !C.indirect then
    some raw
  else
    let (order, armed) := rtBuffer R.taskOrder
    if armed && decide (raw < C.maxTasks) then do
      let mapped ← through order (tableWord m order raw)
      let nt ← checkedNumTasks R m
      -- the control block's own armed flag is not asked for
      let ctrl := (rtBuffer R.ctrl).1
      let osz ← through ctrl (loadOrderSize m ctrl)
      let szOk := osz == 0 || osz == nt
      return if mapped < nt && szOk then mapped else raw
    else
      some raw

/-- The entry blocks, with the `num_tasks` they loaded. -/
def checkedDispatch (useCLC : Bool) (C : Config) (R : RtSlots) (m : ByteMem) (nctaid ctaid : Dim3) :
    Option (Dispatch × ℕ) :=
  let first := ctaidIntrinsic C.slotAxis ctaid
  let armed := if useCLC then (rtBuffer R.ctrl).2 else (rtBuffer R.queue).2 && (rtBuffer R.ctrl).2
  let n1 := nctaidIntrinsic ((C.slotAxis + 1).tmod 3) nctaid
  let n2 := nctaidIntrinsic ((C.slotAxis + 2).tmod 3) nctaid
  let grid1d := n1 == 1 && n2 == 1
  if armed && grid1d then do
    let ntasks ← checkedNumTasks R m
    return (if ntasks = 0 then .stock first else if first ≥ ntasks then .exit else .loop first, ntasks)
  else
    some (.stock first, 0)

/-- `emitClaim`: the next raw id, from the hardware's answer or from the ticket counter. -/
def checkedClaim (useCLC : Bool) (R : RtSlots) (m : ByteMem) (ntasks : ℕ) (victim : Option Dim3) :
    Option ℕ :=
  if useCLC then
    some (clcClaim ntasks victim)
  else
    let queue := (rtBuffer R.queue).1
    through queue (ticketClaim (m.load32 queue)).1

/-- What one CTA finds on its way: the memory at each of its accesses, and the answers to its
    cancellation requests. -/
structure Surroundings where
  mem : ℕ → ByteMem
  victims : ℕ → Option Dim3

/-- Up to `fuel` rounds of the claim loop from `raw`: the tasks that the body is run for. -/
def checkedLoop (useCLC : Bool) (C : Config) (R : RtSlots) (env : Surroundings) (ntasks : ℕ) :
    ℕ → ℕ → Option (List ℕ)
  | 0, _ => some []
  | fuel + 1, raw => do
    let task ← checkedOrderRemap C R (env.mem (2 * fuel)) raw
    let next ← checkedClaim useCLC R (env.mem (2 * fuel + 1)) ntasks (env.victims fuel)
    if loopDone ntasks next then
      return [task]
    else
      let tasks ← checkedLoop useCLC C R env ntasks fuel next
      return task :: tasks

/-- The driver of one CTA, with up to `fuel` rounds of the claim loop. -/
def checkedDriver (useCLC : Bool) (C : Config) (R : RtSlots) (env : Surroundings) (fuel : ℕ)
    (nctaid ctaid : Dim3) : Option (List ℕ) := do
  let (path, ntasks) ← checkedDispatch useCLC C R (env.mem (2 * fuel + 1)) nctaid ctaid
  match path with
  | .stock first =>
      let task ← checkedOrderRemap C R (env.mem (2 * fuel)) first
      return [task]
  | .exit => return []
  | .loop first => checkedLoop useCLC C R env ntasks fuel first

/-! ## Where the driver goes through null -/

variable {useCLC : Bool} {C : Config} {R : RtSlots} {m : ByteMem}

/-- The remap reads the order table for `raw`. -/
def RemapReads (C : Config) (R : RtSlots) (raw : ℕ) : Prop :=
  C.indirect = true ∧ R.taskOrder.base ≠ 0 ∧ raw < C.maxTasks

instance (C : Config) (R : RtSlots) (raw : ℕ) : Decidable (RemapReads C R raw) :=
  inferInstanceAs (Decidable (_ ∧ _ ∧ _))

theorem checkedOrderRemap_of_ctrl (h : R.ctrl.base ≠ 0) (raw : ℕ) :
    checkedOrderRemap C R m raw = some (emitOrderRemap C R m raw) := by
  have hctrl : rtBuffer R.ctrl = (R.ctrl.base, true) := RtSlot.Armed.buffer (RtSlot.armed_iff.2 h)
  unfold checkedOrderRemap emitOrderRemap checkedNumTasks
  rcases R.taskOrder.null_or_armed with hb | ⟨hb, hne⟩
  · simp [hb]
  · simp only [hb, hctrl, through_of_ne hne, through_of_ne h]
    split_ifs <;> first | rfl | simp_all

theorem checkedOrderRemap_of_not_reads {raw : ℕ} (h : ¬ RemapReads C R raw) :
    checkedOrderRemap C R m raw = some raw ∧ emitOrderRemap C R m raw = raw := by
  unfold checkedOrderRemap emitOrderRemap
  rcases R.taskOrder.null_or_armed with hb | ⟨hb, hne⟩
  · simp [hb]
  · by_cases hind : C.indirect = true
    · have hle : ¬ raw < C.maxTasks := fun hlt => h ⟨hind, hne, hlt⟩
      simp [hb, hle]
    · simp [hind]

/-- With a table to read and no control block, the remap loads `num_tasks` through null. -/
theorem checkedOrderRemap_of_null {raw : ℕ} (h : RemapReads C R raw) (hctrl : R.ctrl.base = 0) :
    checkedOrderRemap C R m raw = none := by
  obtain ⟨hind, hne, hlt⟩ := h
  have harmed : R.taskOrder.Armed := RtSlot.armed_iff.2 hne
  simp [checkedOrderRemap, checkedNumTasks, harmed.available, harmed.buffer, hind, hlt,
    through_of_ne hne, RtSlot.buffer_of_null hctrl]

theorem checkedDispatch_of_null (h : R.ctrl.base = 0) (nctaid ctaid : Dim3) :
    checkedDispatch useCLC C R m nctaid ctaid = some (.stock (ctaidIntrinsic C.slotAxis ctaid), 0) := by
  simp [checkedDispatch, RtSlot.buffer_of_null h]

theorem checkedDispatch_of_ctrl (h : R.ctrl.base ≠ 0) (nctaid ctaid : Dim3) :
    ∃ ntasks, checkedDispatch useCLC C R m nctaid ctaid
      = some (dispatch useCLC C R m nctaid ctaid, ntasks) := by
  have hctrl : rtBuffer R.ctrl = (R.ctrl.base, true) := RtSlot.Armed.buffer (RtSlot.armed_iff.2 h)
  unfold checkedDispatch dispatch checkedNumTasks
  simp only [hctrl, through_of_ne h]
  split <;> split <;> exact ⟨_, rfl⟩

/-- A CTA that enters the ticket loop has a ticket counter. -/
theorem queue_of_loop {nctaid ctaid : Dim3} {first : ℕ}
    (h : dispatch useCLC C R m nctaid ctaid = .loop first) (hclc : useCLC = false) :
    R.queue.base ≠ 0 := by
  intro hq
  subst hclc
  simp [dispatch, RtSlot.buffer_of_null hq] at h

theorem checkedClaim_of_queue (hq : useCLC = false → R.queue.base ≠ 0) (ntasks : ℕ)
    (victim : Option Dim3) : ∃ next, checkedClaim useCLC R m ntasks victim = some next := by
  cases useCLC with
  | true => exact ⟨_, rfl⟩
  | false => exact ⟨_, through_of_ne (hq rfl) _⟩

/-- The claim loop runs behind the armed flags, and none of its rounds goes through null. -/
theorem checkedLoop_of_armed (hctrl : R.ctrl.base ≠ 0) (hq : useCLC = false → R.queue.base ≠ 0)
    (env : Surroundings) (ntasks fuel raw : ℕ) :
    ∃ tasks, checkedLoop useCLC C R env ntasks fuel raw = some tasks := by
  induction fuel generalizing raw with
  | zero => exact ⟨[], rfl⟩
  | succ fuel ih =>
      obtain ⟨next, hnext⟩ :=
        checkedClaim_of_queue (m := env.mem (2 * fuel + 1)) hq ntasks (env.victims fuel)
      obtain ⟨tasks, htasks⟩ := ih next
      simp only [checkedLoop, checkedOrderRemap_of_ctrl hctrl, hnext, htasks, Option.bind_eq_bind,
        Option.bind_some]
      split <;> exact ⟨_, rfl⟩

theorem checkedDriver_of_ctrl (h : R.ctrl.base ≠ 0) (env : Surroundings) (fuel : ℕ)
    (nctaid ctaid : Dim3) : checkedDriver useCLC C R env fuel nctaid ctaid ≠ none := by
  obtain ⟨ntasks, hdisp⟩ :=
    @checkedDispatch_of_ctrl useCLC C R (env.mem (2 * fuel + 1)) h nctaid ctaid
  rw [checkedDriver, hdisp]
  cases hpath : dispatch useCLC C R (env.mem (2 * fuel + 1)) nctaid ctaid with
  | stock first => simp [checkedOrderRemap_of_ctrl h]
  | exit => simp
  | loop first =>
      obtain ⟨tasks, htasks⟩ :=
        checkedLoop_of_armed (C := C) h (queue_of_loop hpath) env ntasks fuel first
      simp [htasks]

theorem checkedDriver_of_null (h : R.ctrl.base = 0) (env : Surroundings) (fuel : ℕ)
    (nctaid ctaid : Dim3) :
    checkedDriver useCLC C R env fuel nctaid ctaid =
      (checkedOrderRemap C R (env.mem (2 * fuel)) (ctaidIntrinsic C.slotAxis ctaid)).map ([·]) := by
  rw [checkedDriver, checkedDispatch_of_null h]
  show (checkedOrderRemap C R (env.mem (2 * fuel)) (ctaidIntrinsic C.slotAxis ctaid)).bind
    (fun task => some [task]) = _
  cases checkedOrderRemap C R (env.mem (2 * fuel)) (ctaidIntrinsic C.slotAxis ctaid) <;> rfl

/-! ## Null slots are stock -/

/-- The slots are safe to be null, for a block at `ctaid`: no access of its plain weave or of its
    driver goes through a null slot, and the capability of a null slot is as if it were not there. -/
structure NullSafe (useCLC : Bool) (C : WeaveConfig) (R : RtSlots) (nctaid ctaid : Dim3) : Prop where
  weave : ∀ m g pid task off cycles,
    checkedTimerOff R m ≠ none ∧ checkedRemap C.toConfig R m g pid ≠ none ∧
      checkedPolicyFlags C R m task ≠ none ∧ checkedBudget C R m task ≠ none ∧
      checkedTimer C.toConfig R m off task cycles ≠ none
  driver : ∀ env fuel, checkedDriver useCLC C.toConfig R env fuel nctaid ctaid ≠ none
  order : R.taskOrder.base = 0 → ∀ m g pid,
    emitRemap C.toConfig R m g pid = pid ∧ emitOrderRemap C.toConfig R m pid = pid
  ctrl : R.ctrl.base = 0 → ∀ m g task,
    orderSizeOk R m g = true ∧ readTimerOff R m = false ∧
      emitPolicyFlags C R m task = { urgent := false, polite := false } ∧
      emitBudget C R m task = noCap
  timer : R.timer.base = 0 → ∀ m off task cycles, emitTimer C.toConfig R m off task cycles = m
  queue : R.ctrl.base = 0 ∨ (useCLC = false ∧ R.queue.base = 0) → ∀ m,
    dispatch useCLC C.toConfig R m nctaid ctaid = .stock (ctaidIntrinsic C.slotAxis ctaid)

theorem dispatch_of_null (h : R.ctrl.base = 0 ∨ (useCLC = false ∧ R.queue.base = 0)) (m : ByteMem)
    (nctaid ctaid : Dim3) :
    dispatch useCLC C R m nctaid ctaid = .stock (ctaidIntrinsic C.slotAxis ctaid) := by
  rcases h with hctrl | ⟨rfl, hq⟩
  · simp [dispatch, RtSlot.buffer_of_null hctrl]
  · simp [dispatch, RtSlot.buffer_of_null hq]

/-- **Null slots are safe except for the driver's stock path**: a block whose slots are null or not,
    in any way, is safe unless the control slot is null while there is an order table and the block
    reads it. -/
theorem null_slots_stock_iff (useCLC : Bool) (C : WeaveConfig) (R : RtSlots) (nctaid ctaid : Dim3) :
    NullSafe useCLC C R nctaid ctaid ↔
      (RemapReads C.toConfig R (ctaidIntrinsic C.slotAxis ctaid) → R.ctrl.base ≠ 0) := by
  constructor
  · intro hsafe hreads hctrl
    refine hsafe.driver ⟨fun _ => ByteMem.zeroed, fun _ => none⟩ 0 ?_
    rw [checkedDriver_of_null hctrl, checkedOrderRemap_of_null hreads hctrl]
    rfl
  · intro hctrl
    refine
      { weave := ?_, driver := ?_, order := ?_, ctrl := ?_, timer := ?_, queue := ?_ }
    · intro m g pid task off cycles
      simp [checkedTimerOff_eq, checkedRemap_eq, checkedPolicyFlags_eq, checkedBudget_eq,
        checkedTimer_eq]
    · intro env fuel
      rcases eq_or_ne R.ctrl.base 0 with hnull | hne
      · have hreads : ¬ RemapReads C.toConfig R (ctaidIntrinsic C.slotAxis ctaid) :=
          fun h => hctrl h hnull
        rw [checkedDriver_of_null hnull, (checkedOrderRemap_of_not_reads hreads).1]
        exact Option.some_ne_none _
      · exact checkedDriver_of_ctrl hne env fuel nctaid ctaid
    · intro hnull m g pid
      exact ⟨emitRemap_of_null hnull g pid, (checkedOrderRemap_of_not_reads fun h => h.2.1 hnull).2⟩
    · intro hnull m g task
      exact ctrl_of_null hnull g task
    · intro hnull m off task cycles
      exact emitTimer_of_null hnull off task cycles
    · intro hnull m
      exact dispatch_of_null hnull m nctaid ctaid

/-- An init whose second slot write fails leaves the order slot armed and the control slot null; block
    0 of a launch then loads `num_tasks` through null. -/
theorem half_armed_not_nullSafe :
    (({} : SchedRt).init SchedRt.plainCuda fun i => i != 9).1 = false ∧
      ¬ NullSafe false {} (({} : SchedRt).init SchedRt.plainCuda fun i => i != 9).2.slots ⟨1, 1, 1⟩
        ⟨0, 0, 0⟩ := by
  refine ⟨by decide, fun h => h.driver ⟨fun _ => ByteMem.zeroed, fun _ => none⟩ 0 ?_⟩
  decide

end SchedPass
