import SchedPass.Lib.ByteMem

set_option autoImplicit false

/-! # What woven code shares (`SchedUtil.h`, `SchedUtil.cpp`)

The compile-time configuration, the special registers a block reads, and the two ways a woven
kernel reaches a runtime buffer: a `__sched_*` global that the host arms (null until then), or an
address baked into the code. The passes emit IR; the model gives the function that the emitted code
computes, with the device memory it loads from as an argument. -/

namespace SchedPass

/-! ## Grid geometry -/

/-- The three grid axes. -/
inductive Axis
  | x | y | z
  deriving DecidableEq, Repr

/-- A `dim3`: a block index (`ctaid`) or a grid shape (`nctaid`). -/
structure Dim3 where
  x : ℕ
  y : ℕ
  z : ℕ
  deriving DecidableEq, Repr

/-- The component of a `dim3` on an axis. -/
def Dim3.get (d : Dim3) : Axis → ℕ
  | .x => d.x
  | .y => d.y
  | .z => d.z

/-- The axis that `ctaidIntrinsic` and `nctaidIntrinsic` read for a configured axis number:
    1 is `y`, 2 is `z`, anything else `x`. -/
def axisOf (axis : ℤ) : Axis :=
  if axis = 1 then .y else if axis = 2 then .z else .x

def ctaidIntrinsic (axis : ℤ) (ctaid : Dim3) : ℕ := ctaid.get (axisOf axis)

def nctaidIntrinsic (axis : ℤ) (nctaid : Dim3) : ℕ := nctaid.get (axisOf axis)

/-! ## Configuration -/

/-- The part of `Config` that the task-acquisition and the timer code read. -/
structure Config where
  /-- `SCHED_SLOT_AXIS`: the request axis. -/
  slotAxis : ℤ := 0
  /-- `SCHED_MAX_TASKS`: rows in every table. -/
  maxTasks : ℕ := 4096
  /-- `SCHED_NO_INDIRECT` clears it: the `task_order` remap. -/
  indirect : Bool := true
  /-- `SCHED_NO_TIMER` clears it: the `clock64` bracket. -/
  timer : Bool := true
  /-- `SCHED_CLC`: claim via cluster launch control (sm_100+). -/
  clc : Bool := false
  /-- `SCHED_TIMER_INDIRECT`: the timer slot's first word is a pointer to the rows. -/
  timerIndirect : Bool := false
  /-- `SCHED_ORDER_INDIRECT`: the order slot's first word is a pointer to the table. -/
  orderIndirect : Bool := false
  deriving DecidableEq, Repr

/-! ## Runtime buffers -/

/-- How the module reaches one runtime buffer: the value of the `__sched_*` global when the module
    declares it (0 is null), and the address baked at compile time (0 is not baked). -/
structure RtSlot where
  global : Option ℕ := none
  bakedAddr : ℕ := 0
  deriving DecidableEq, Repr

/-- Is the capability reachable at all: the global is present, or an address is baked. -/
def rtAvailable (s : RtSlot) : Bool := s.global.isSome || s.bakedAddr != 0

/-- The buffer's base address and its "armed" flag. The global takes precedence; a baked buffer is
    always armed. -/
def rtBuffer (s : RtSlot) : ℕ × Bool :=
  match s.global with
  | some p => (p, p != 0)
  | none => if s.bakedAddr = 0 then (0, false) else (s.bakedAddr, true)

/-- The slots of the runtime contract. -/
structure RtSlots where
  taskOrder : RtSlot
  ctrl : RtSlot
  queue : RtSlot := {}
  timer : RtSlot := {}
  deriving DecidableEq, Repr

/-- The slot is reachable and its armed flag is set. -/
def RtSlot.Armed (s : RtSlot) : Prop := (rtBuffer s).2 = true

instance (s : RtSlot) : Decidable s.Armed := inferInstanceAs (Decidable (_ = true))

/-- The buffer address of a slot. -/
def RtSlot.base (s : RtSlot) : ℕ := (rtBuffer s).1

/-- An armed slot is an available one. -/
theorem RtSlot.Armed.available {s : RtSlot} (h : s.Armed) : rtAvailable s = true := by
  obtain ⟨glob, baked⟩ := s
  cases glob with
  | some p => rfl
  | none =>
      by_cases hb : baked = 0
      · subst hb
        exact absurd h (by decide)
      · simp [rtAvailable, hb]

theorem RtSlot.Armed.buffer {s : RtSlot} (h : s.Armed) : rtBuffer s = (s.base, true) :=
  Prod.ext rfl h

theorem rtBuffer_baked {a : ℕ} (ha : 0 < a) : rtBuffer { bakedAddr := a } = (a, true) := by
  simp [rtBuffer, ha.ne']

theorem RtSlot.base_baked {a : ℕ} (ha : 0 < a) : RtSlot.base { bakedAddr := a } = a := by
  rw [RtSlot.base, rtBuffer_baked ha]

theorem RtSlot.armed_baked {a : ℕ} (ha : 0 < a) : RtSlot.Armed { bakedAddr := a } := by
  rw [RtSlot.Armed, rtBuffer_baked ha]

/-! ## Control block -/

/-- `u32 num_tasks`. -/
def kCtrlNumTasksOff : ℕ := 4

/-- `u32 flags`. -/
def kCtrlFlagsOff : ℕ := 24

/-- Bit 0 of `flags`: timer off. -/
def kCtrlFlagTimerOff : ℕ := 1

/-- `u32 order_size`: the tile count the installed permutation was built for, 0 for unchecked. -/
def kCtrlOrderSizeOff : ℕ := 28

/-- Load `ctrl->num_tasks` from a control block at `ctrl`. -/
def loadNumTasks (m : ByteMem) (ctrl : ℕ) : ℕ := m.load32 (ctrl + kCtrlNumTasksOff)

/-- Load `ctrl->order_size` from a control block at `ctrl`. -/
def loadOrderSize (m : ByteMem) (ctrl : ℕ) : ℕ := m.load32 (ctrl + kCtrlOrderSizeOff)

/-- Word `k` of a word table at `base` (`getelementptr i32` and load). -/
def tableWord (m : ByteMem) (base k : ℕ) : ℕ := m.load32 (base + 4 * k)

end SchedPass
