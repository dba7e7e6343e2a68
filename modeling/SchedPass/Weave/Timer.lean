import SchedPass.Util

set_option autoImplicit false

/-! # The woven timer (`Weaver::readTimerOff`, `Weaver::emitTimer`)

A kernel with a timer latches the gate, bit 0 of `ctrl.flags`, at its entry; at each return thread 0
adds the cycles since the entry to the task's row, unless the latched gate was off. The instructions that
`Weaver` emits do this (`Weaver.readTimerOff_computes`, `Weaver.emitTimerAt_computes`). -/

namespace SchedPass

/-! ## The emitted code -/

/-- The gate as read at entry: true when the timer is off. Without an armed control block it is on. -/
def readTimerOff (R : RtSlots) (m : ByteMem) : Bool :=
  if rtAvailable R.ctrl then
    let (ctrl, cArmed) := rtBuffer R.ctrl
    if cArmed then
      m.load32 (ctrl + kCtrlFlagsOff) &&& kCtrlFlagTimerOff != 0
    else
      false
  else
    false

/-- `atomicrmw add` on the 64-bit word at `a`. -/
def atomicAdd64 (m : ByteMem) (a v : ℕ) : ByteMem := m.store a (ByteMem.toBytes 8 (m.load64 a + v))

/-- What thread 0 does at a return, for the gate `timerOff` latched at entry and `cycles` since then. With
    `SCHED_TIMER_INDIRECT` the slot's first word is the rows' address, and a zero word is off. -/
def emitTimer (C : Config) (R : RtSlots) (m : ByteMem) (timerOff : Bool) (task cycles : ℕ) : ByteMem :=
  if C.timer && rtAvailable R.timer then
    let (G, armed) := rtBuffer R.timer
    if armed && decide (task < C.maxTasks) && !timerOff then
      if C.timerIndirect then
        let chan := m.load64 G
        if chan != 0 then
          atomicAdd64 m (chan + 8 * task) cycles
        else
          m
      else
        atomicAdd64 m (G + 8 * task) cycles
    else
      m
  else
    m

variable {C : Config} {R : RtSlots} {m : ByteMem}

theorem readTimerOff_of_armed (h : R.ctrl.Armed) :
    readTimerOff R m = (m.load32 (R.ctrl.base + kCtrlFlagsOff) &&& kCtrlFlagTimerOff != 0) := by
  simp [readTimerOff, h.available, h.buffer]

@[simp] theorem emitTimer_off (task cycles : ℕ) : emitTimer C R m true task cycles = m := by
  simp [emitTimer]

theorem emitTimer_of_le {task : ℕ} (h : C.maxTasks ≤ task) (off : Bool) (cycles : ℕ) :
    emitTimer C R m off task cycles = m := by
  simp [emitTimer, not_lt.2 h]

/-- An armed timer adds to the task's row, wherever the channel leads. -/
theorem emitTimer_on (htimer : C.timer = true) (h : R.timer.Armed) {rows task : ℕ}
    (hrows : (if C.timerIndirect then m.load64 R.timer.base else R.timer.base) = rows)
    (hpos : rows ≠ 0) (htask : task < C.maxTasks) (cycles : ℕ) :
    emitTimer C R m false task cycles = atomicAdd64 m (rows + 8 * task) cycles := by
  subst hrows
  cases hind : C.timerIndirect with
  | false => simp [emitTimer, htimer, h.available, h.buffer, htask, hind]
  | true =>
      simp only [hind, if_true] at hpos
      simp [emitTimer, htimer, h.available, h.buffer, htask, hind, hpos]

/-! ## Frames -/

theorem load_atomicAdd64_of_disjoint (a v : ℕ) {b w : ℕ} (h : b + w ≤ a ∨ a + 8 ≤ b) :
    (atomicAdd64 m a v).load b w = m.load b w :=
  ByteMem.load_store_of_disjoint m a _ (by rwa [ByteMem.length_toBytes])

theorem load64_atomicAdd64 (a v : ℕ) : (atomicAdd64 m a v).load64 a = (m.load64 a + v) % 2 ^ 64 :=
  ByteMem.load_store_toBytes m a 8 _

end SchedPass
