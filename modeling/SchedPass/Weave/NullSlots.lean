import SchedPass.Weave.Policy
import SchedPass.Weave.Remap
import SchedPass.Weave.Timer

set_option autoImplicit false

/-! # Null slots in the plain weave

The emitted code of `Weave/Timer.lean`, `Weave/Remap.lean` and `Weave/Policy.lean` once more, now with
every access through a slot checked: an access through a null slot is `none`. Each piece of the plain
weave tests the slot's armed flag around its accesses, so each is `some` of what the unchecked code
computes, whatever the slots are; and a piece whose slot is null computes what a kernel without the
capability does. -/

namespace SchedPass

/-- An access through a slot's pointer, with the value it gives. -/
def through {α : Type} (p : ℕ) (v : α) : Option α := if p = 0 then none else some v

@[simp] theorem through_zero {α : Type} (v : α) : through 0 v = none := rfl

theorem through_of_ne {α : Type} {p : ℕ} (h : p ≠ 0) (v : α) : through p v = some v := if_neg h

/-! ## The emitted code, checked -/

def checkedTimerOff (R : RtSlots) (m : ByteMem) : Option Bool :=
  if rtAvailable R.ctrl then
    let (ctrl, cArmed) := rtBuffer R.ctrl
    if cArmed then do
      let flags ← through ctrl (m.load32 (ctrl + kCtrlFlagsOff))
      return flags &&& kCtrlFlagTimerOff != 0
    else
      some false
  else
    some false

def checkedOrderEntry (C : Config) (m : ByteMem) (G pid : ℕ) : Option ℕ :=
  if C.orderIndirect then do
    let ptr ← through G (m.load64 G)
    let chanOk := ptr != 0
    let base := if chanOk then ptr else G
    let mapped ← through base (tableWord m base pid)
    return if chanOk then mapped else C.maxTasks
  else
    through G (tableWord m G pid)

def checkedSizeOk (R : RtSlots) (m : ByteMem) (nTiles : ℕ) : Option Bool :=
  if rtAvailable R.ctrl then
    let (ctrl, cArmed) := rtBuffer R.ctrl
    if cArmed then do
      let osz ← through ctrl (loadOrderSize m ctrl)
      return osz == 0 || osz == nTiles
    else
      some true
  else
    some true

def checkedRemap (C : Config) (R : RtSlots) (m : ByteMem) (nTiles pid : ℕ) : Option ℕ :=
  let (G, armed) := rtBuffer R.taskOrder
  if armed && decide (pid < C.maxTasks) then do
    let mapped ← checkedOrderEntry C m G pid
    let sizeOk ← checkedSizeOk R m nTiles
    return selectTask mapped nTiles pid sizeOk
  else
    some pid

def checkedPolicyFlags (C : WeaveConfig) (R : RtSlots) (m : ByteMem) (task : ℕ) : Option PolicyFlags :=
  let (G, armed) := rtBuffer R.ctrl
  if armed && decide (task < C.maxTasks) then do
    let lam ← through G (loadF32 m (G + kCtrlLambdaOff))
    let q ← through G (loadF32 m (G + rowOff task))
    let hint ← through G (m.load (G + (rowOff task + kCtrlRowHintOff)) 1)
    let score := q * constF32 C.dT - lam * constF32 C.dR - constF32 C.H
    let scoreOk := (Float32.Model.ofBits 0).lt score
    return { urgent := hint == kHintUrgent || (hint == kHintAuto && scoreOk)
             polite := hint == kHintPolite }
  else
    some { urgent := false, polite := false }

def checkedBudget (C : WeaveConfig) (R : RtSlots) (m : ByteMem) (task : ℕ) : Option ℕ :=
  let (G, armed) := rtBuffer R.ctrl
  if armed && decide (task < C.maxTasks) then do
    let tau ← through G (loadTau m G task)
    return capOf tau
  else
    some noCap

def checkedTimer (C : Config) (R : RtSlots) (m : ByteMem) (timerOff : Bool) (task cycles : ℕ) :
    Option ByteMem :=
  if C.timer && rtAvailable R.timer then
    let (G, armed) := rtBuffer R.timer
    if armed && decide (task < C.maxTasks) && !timerOff then
      if C.timerIndirect then do
        let chan ← through G (m.load64 G)
        if chan != 0 then
          through chan (atomicAdd64 m (chan + 8 * task) cycles)
        else
          return m
      else
        through G (atomicAdd64 m (G + 8 * task) cycles)
    else
      some m
  else
    some m

/-! ## No null access -/

variable {C : WeaveConfig} {R : RtSlots} {m : ByteMem}

/-- A buffer is armed exactly when its pointer is not null. -/
theorem rtBuffer_armed_iff (s : RtSlot) : (rtBuffer s).2 = true ↔ (rtBuffer s).1 ≠ 0 := by
  obtain ⟨glob, baked⟩ := s
  cases glob with
  | some p => simp [rtBuffer]
  | none => by_cases hb : baked = 0 <;> simp [rtBuffer, hb]

theorem RtSlot.armed_iff {s : RtSlot} : s.Armed ↔ s.base ≠ 0 := rtBuffer_armed_iff s

theorem RtSlot.buffer_of_null {s : RtSlot} (h : s.base = 0) : rtBuffer s = (0, false) := by
  refine Prod.ext h (Bool.eq_false_iff.2 fun ha => ?_)
  exact (rtBuffer_armed_iff s).1 ha h

/-- A slot is null, or armed with a pointer that is not. -/
theorem RtSlot.null_or_armed (s : RtSlot) :
    rtBuffer s = (0, false) ∨ (rtBuffer s = (s.base, true) ∧ s.base ≠ 0) := by
  rcases eq_or_ne s.base 0 with h | h
  · exact Or.inl (RtSlot.buffer_of_null h)
  · exact Or.inr ⟨RtSlot.Armed.buffer (RtSlot.armed_iff.2 h), h⟩

theorem checkedTimerOff_eq (R : RtSlots) (m : ByteMem) :
    checkedTimerOff R m = some (readTimerOff R m) := by
  unfold checkedTimerOff readTimerOff
  rcases R.ctrl.null_or_armed with hb | ⟨hb, hne⟩
  · simp [hb]
  · simp only [hb, if_true, through_of_ne hne]
    split <;> rfl

theorem checkedOrderEntry_eq (C : Config) (m : ByteMem) {G : ℕ} (hG : G ≠ 0) (pid : ℕ) :
    checkedOrderEntry C m G pid = some (orderEntry C m G pid) := by
  unfold checkedOrderEntry orderEntry
  cases C.orderIndirect with
  | false => exact through_of_ne hG _
  | true =>
      by_cases hp : m.load64 G = 0
      · simp [through_of_ne hG, hp]
      · simp [through_of_ne hG, through_of_ne hp, hp]

theorem checkedSizeOk_eq (R : RtSlots) (m : ByteMem) (nTiles : ℕ) :
    checkedSizeOk R m nTiles = some (orderSizeOk R m nTiles) := by
  unfold checkedSizeOk orderSizeOk
  rcases R.ctrl.null_or_armed with hb | ⟨hb, hne⟩
  · simp [hb]
  · simp only [hb, if_true, through_of_ne hne]
    split <;> rfl

theorem checkedRemap_eq (C : Config) (R : RtSlots) (m : ByteMem) (nTiles pid : ℕ) :
    checkedRemap C R m nTiles pid = some (emitRemap C R m nTiles pid) := by
  unfold checkedRemap emitRemap
  rcases R.taskOrder.null_or_armed with hb | ⟨hb, hne⟩
  · simp [hb]
  · simp only [hb, checkedOrderEntry_eq C m hne, checkedSizeOk_eq]
    split <;> rfl

theorem checkedPolicyFlags_eq (C : WeaveConfig) (R : RtSlots) (m : ByteMem) (task : ℕ) :
    checkedPolicyFlags C R m task = some (emitPolicyFlags C R m task) := by
  unfold checkedPolicyFlags emitPolicyFlags
  rcases R.ctrl.null_or_armed with hb | ⟨hb, hne⟩
  · simp [hb]
  · simp only [hb, through_of_ne hne]
    split <;> rfl

theorem checkedBudget_eq (C : WeaveConfig) (R : RtSlots) (m : ByteMem) (task : ℕ) :
    checkedBudget C R m task = some (emitBudget C R m task) := by
  unfold checkedBudget emitBudget
  rcases R.ctrl.null_or_armed with hb | ⟨hb, hne⟩
  · simp [hb]
  · simp only [hb, through_of_ne hne]
    split <;> rfl

theorem checkedTimer_eq (C : Config) (R : RtSlots) (m : ByteMem) (off : Bool) (task cycles : ℕ) :
    checkedTimer C R m off task cycles = some (emitTimer C R m off task cycles) := by
  unfold checkedTimer emitTimer
  rcases R.timer.null_or_armed with hb | ⟨hb, hne⟩
  · simp [hb]
  · by_cases hp : m.load64 R.timer.base = 0
    · simp only [hb, through_of_ne hne, hp, Option.bind_eq_bind, Option.bind_some, bne_self_eq_false,
        Bool.false_eq_true, if_false]
      split_ifs <;> rfl
    · simp only [hb, through_of_ne hne, Option.bind_eq_bind, Option.bind_some, through_of_ne hp]
      split_ifs <;> rfl

/-! ## Stock behaviour of a null slot -/

theorem emitRemap_of_null {C : Config} (h : R.taskOrder.base = 0) (nTiles pid : ℕ) :
    emitRemap C R m nTiles pid = pid := by
  simp [emitRemap, RtSlot.buffer_of_null h]

/-- Without a control block no stamp is checked, the timer is on, no flag is set and nothing is
    capped. -/
theorem ctrl_of_null (h : R.ctrl.base = 0) (nTiles task : ℕ) :
    orderSizeOk R m nTiles = true ∧ readTimerOff R m = false ∧
      emitPolicyFlags C R m task = { urgent := false, polite := false } ∧
      emitBudget C R m task = noCap := by
  simp [orderSizeOk, readTimerOff, emitPolicyFlags, emitBudget, RtSlot.buffer_of_null h]

theorem emitTimer_of_null {C : Config} (h : R.timer.base = 0) (off : Bool) (task cycles : ℕ) :
    emitTimer C R m off task cycles = m := by
  simp [emitTimer, RtSlot.buffer_of_null h]

end SchedPass
