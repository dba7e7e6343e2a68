import SchedPass.Lib.FloatSign
import SchedPass.Util

set_option autoImplicit false

/-! # Per-task policy rows (`Weaver::emitPolicyFlags`, `Weaver::emitBudget`, `Weaver::shedCounter`)

A task's row in the control block holds its urgency, its shed budget and a hint. The prologue turns
the row into two flags, urgent and polite, and into the budget that the shed masks compare their
counter with. Without an armed control block, and for a task beyond the table, the flags are off and
the budget is the largest 32-bit number.

The masks compare the loop's canonical induction variable, as 32 bits, with the budget; `shedKeep`
says which iterations a mask keeps. The instructions that `Weaver` emits compute the flags and the budget
(`Weaver.emitPolicyFlags_computes`, `Weaver.emitBudget_computes`). -/

namespace SchedPass

open Float.Model (Format UnpackedFloat)

/-! ## Configuration -/

/-- `Config` in full. -/
structure WeaveConfig extends Config where
  /-- `SCHED_NO_POLICY` clears it: the policy flags and the prefetches. -/
  policy : Bool := true
  /-- `SCHED_NO_SHED` clears it: the shed masks. -/
  shed : Bool := true
  /-- `SCHED_PDL`: the `griddepcontrol` points. -/
  pdl : Bool := false
  /-- `SCHED_PF_DIST`: iterations ahead. -/
  prefetchDist : ℕ := 8
  /-- `SCHED_DT`, `SCHED_DR`, `SCHED_H`: act iff `q * dT - lambda * dR - H > 0`. -/
  dT : Float.Model := .ofNat 1
  dR : Float.Model := .ofNat 1
  H : Float.Model := .ofScientific 25 (-2)
  /-- `SCHED_DEBUG`: notes on standard error. -/
  debug : Bool := false
  deriving DecidableEq

/-- A double as a single-precision constant (`ConstantFP::get`). -/
def constF32 (x : Float.Model) : Float32.Model := .pack (FloatSign.roundTo .binary32 x.unpack)

/-! ## Rows of the control block -/

/-- `f32 lambda[4]`; entry 0 is the bandwidth price. -/
def kCtrlLambdaOff : ℕ := 8

def kCtrlRowsOff : ℕ := 32

def kCtrlRowSize : ℕ := 8

/-- `u16 tau` within a row. -/
def kCtrlRowTauOff : ℕ := 4

/-- `u8 hint` within a row. -/
def kCtrlRowHintOff : ℕ := 6

def kHintAuto : ℕ := 0
def kHintUrgent : ℕ := 1
def kHintPolite : ℕ := 2

/-- Load an `f32`. -/
def loadF32 (m : ByteMem) (a : ℕ) : Float32.Model := .ofBits (UInt32.ofNat (m.load32 a))

/-- Where a task's row starts within the control block. -/
def rowOff (task : ℕ) : ℕ := task * kCtrlRowSize + kCtrlRowsOff

/-- Load `ctrl->task[task].tau` from a control block at `ctrl`. -/
def loadTau (m : ByteMem) (ctrl task : ℕ) : ℕ := m.load (ctrl + (rowOff task + kCtrlRowTauOff)) 2

/-! ## The emitted code -/

structure PolicyFlags where
  urgent : Bool
  polite : Bool
  deriving DecidableEq, Repr

/-- Urgent by hint, or by a positive score; polite by hint. -/
def emitPolicyFlags (C : WeaveConfig) (R : RtSlots) (m : ByteMem) (task : ℕ) : PolicyFlags :=
  let (G, armed) := rtBuffer R.ctrl
  if armed && decide (task < C.maxTasks) then
    let lam := loadF32 m (G + kCtrlLambdaOff)
    let q := loadF32 m (G + rowOff task)
    let hint := m.load (G + (rowOff task + kCtrlRowHintOff)) 1
    let score := q * constF32 C.dT - lam * constF32 C.dR - constF32 C.H
    let scoreOk := (Float32.Model.ofBits 0).lt score
    { urgent := hint == kHintUrgent || (hint == kHintAuto && scoreOk)
      polite := hint == kHintPolite }
  else
    { urgent := false, polite := false }

/-- `UINT32_MAX`: no cap. -/
def noCap : ℕ := 2 ^ 32 - 1

/-- The cap that a row's `tau` stands for; 0 is none. -/
def capOf (tau : ℕ) : ℕ := if tau = 0 then noCap else tau

/-- The task's shed budget. -/
def emitBudget (C : WeaveConfig) (R : RtSlots) (m : ByteMem) (task : ℕ) : ℕ :=
  let (G, armed) := rtBuffer R.ctrl
  if armed && decide (task < C.maxTasks) then capOf (loadTau m G task) else noCap

/-- The counter of iteration `i`, for a canonical induction variable of `width` bits: truncated or
    zero-extended to 32 bits. -/
def shedCounter (width i : ℕ) : ℕ := i % 2 ^ width % 2 ^ 32

/-- Does the mask keep iteration `i`? -/
def shedKeep (width budget i : ℕ) : Bool := shedCounter width i < budget

variable {C : WeaveConfig} {R : RtSlots} {m : ByteMem}

/-! ## The flags -/

/-- Rounding a double that is not negative to single precision keeps its sign. -/
theorem constF32_nonneg {x : Float.Model} (h : Float.Model.ofBits 0 ≤ x) :
    FloatSign.HasSign .positive (constF32 x).unpack :=
  (FloatSign.hasSign_of_zero_le h).roundTo.pack

/-- A zero row under a zero price has no flag, whatever the weights are. -/
theorem emitPolicyFlags_of_zero (hH : Float.Model.ofBits 0 ≤ C.H) {task : ℕ}
    (hlam : m.load32 (R.ctrl.base + kCtrlLambdaOff) = 0)
    (hq : m.load32 (R.ctrl.base + rowOff task) = 0)
    (hhint : m.load (R.ctrl.base + (rowOff task + kCtrlRowHintOff)) 1 = 0) :
    emitPolicyFlags C R m task = { urgent := false, polite := false } := by
  have hlamz : loadF32 m (R.ctrl.base + kCtrlLambdaOff) = .ofBits 0 := by rw [loadF32, hlam]; rfl
  have hqz : loadF32 m (R.ctrl.base + rowOff task) = .ofBits 0 := by rw [loadF32, hq]; rfl
  have hscore := FloatSign.not_pos_sub_sub (FloatSign.vanishing_ofBits_zero_mul (constF32 C.dT))
    (FloatSign.vanishing_ofBits_zero_mul (constF32 C.dR)) (constF32_nonneg hH)
  unfold emitPolicyFlags
  cases harmed : (rtBuffer R.ctrl).2 && decide (task < C.maxTasks) with
  | false => simp only [harmed, Bool.false_eq_true, if_false]
  | true =>
      simp only [harmed, if_true]
      show PolicyFlags.mk _ _ = _
      rw [RtSlot.base] at hlamz hqz hhint
      rw [hlamz, hqz, hhint, hscore]
      rfl

theorem emitPolicyFlags_of_le {task : ℕ} (h : C.maxTasks ≤ task) :
    emitPolicyFlags C R m task = { urgent := false, polite := false } := by
  simp [emitPolicyFlags, not_lt.2 h]

/-! ## The budget -/

theorem emitBudget_of_le {task : ℕ} (h : C.maxTasks ≤ task) : emitBudget C R m task = noCap := by
  simp [emitBudget, not_lt.2 h]

theorem emitBudget_of_armed (h : R.ctrl.Armed) {task : ℕ} (htask : task < C.maxTasks) :
    emitBudget C R m task = capOf (loadTau m R.ctrl.base task) := by
  simp only [emitBudget, h.buffer, decide_eq_true htask, Bool.and_self, if_true]

@[simp] theorem capOf_zero : capOf 0 = noCap := rfl

theorem capOf_of_pos {tau : ℕ} (h : 0 < tau) : capOf tau = tau := if_neg h.ne'

/-- No control block, no row or a row of 0: no cap. -/
theorem emitBudget_noCap {task : ℕ}
    (h : ¬R.ctrl.Armed ∨ C.maxTasks ≤ task ∨ loadTau m R.ctrl.base task = 0) :
    emitBudget C R m task = noCap := by
  by_cases harmed : R.ctrl.Armed
  · by_cases htask : task < C.maxTasks
    · rcases h with hnot | hle | hzero
      · exact absurd harmed hnot
      · exact emitBudget_of_le hle
      · rw [emitBudget_of_armed harmed htask, hzero, capOf_zero]
    · exact emitBudget_of_le (not_lt.1 htask)
  · have hfalse : (rtBuffer R.ctrl).2 = false := by simpa [RtSlot.Armed] using harmed
    simp [emitBudget, hfalse]

/-- How far a 32-bit counter from an induction variable of `width` bits counts. -/
def counterRange (width : ℕ) : ℕ := 2 ^ min width 32

theorem shedCounter_eq_mod (width i : ℕ) : shedCounter width i = i % counterRange width := by
  unfold shedCounter counterRange
  rcases le_total width 32 with h | h
  · have hle : i % 2 ^ width < 2 ^ 32 :=
      (Nat.mod_lt i (Nat.two_pow_pos width)).trans_le (Nat.pow_le_pow_right Nat.two_pos h)
    rw [Nat.mod_eq_of_lt hle, min_eq_left h]
  · rw [min_eq_right h, Nat.mod_mod_of_dvd i (pow_dvd_pow 2 h)]

theorem counterRange_pos (width : ℕ) : 0 < counterRange width := Nat.two_pow_pos _

theorem shedKeep_of_lt {width i : ℕ} (h : i < counterRange width) (budget : ℕ) :
    shedKeep width budget i = decide (i < budget) := by
  rw [shedKeep, shedCounter_eq_mod, Nat.mod_eq_of_lt h]

/-- Every iteration from `tau` on is dropped exactly when the loop ends before its counter wraps. -/
theorem forall_dropped_iff {width tau trips : ℕ} (htau : 1 ≤ tau) :
    (∀ i, tau ≤ i → i < trips → shedKeep width tau i = false) ↔
      trips ≤ max tau (counterRange width) := by
  simp only [shedKeep, shedCounter_eq_mod, decide_eq_false_iff_not, not_lt]
  have hrange := counterRange_pos width
  constructor
  · intro h
    by_contra hlt
    rw [not_le, max_lt_iff] at hlt
    rcases le_total tau (counterRange width) with hle | hle
    · have hwrap := h (counterRange width) hle hlt.2
      rw [Nat.mod_self] at hwrap
      omega
    · have hwrap := h tau le_rfl hlt.1
      have := Nat.mod_lt tau hrange
      omega
  · intro h i hi hlt
    rcases lt_max_iff.1 (hlt.trans_le h) with hi' | hi'
    · omega
    · rwa [Nat.mod_eq_of_lt hi']

/-- Without a cap the mask drops an iteration only at the largest counter value. -/
theorem shedKeep_noCap_eq_false_iff {width i : ℕ} :
    shedKeep width noCap i = false ↔ 32 ≤ width ∧ i % 2 ^ 32 = 2 ^ 32 - 1 := by
  rw [shedKeep, shedCounter_eq_mod, decide_eq_false_iff_not, not_lt, noCap]
  rcases lt_or_ge width 32 with hw | hw
  · have hrange : counterRange width ≤ 2 ^ 31 := Nat.pow_le_pow_right Nat.two_pos (by omega)
    have hlt := Nat.mod_lt i (counterRange_pos width)
    omega
  · rw [counterRange, min_eq_right hw]
    have hlt := Nat.mod_lt i (Nat.two_pow_pos 32)
    omega

/-- Without a cap the mask keeps every iteration of a loop that the counter can count. -/
theorem shedKeep_noCap_iff {width n : ℕ} :
    (∀ i < n, shedKeep width noCap i = true) ↔ width < 32 ∨ n < 2 ^ 32 := by
  simp only [← Bool.not_eq_false, shedKeep_noCap_eq_false_iff, not_and]
  constructor
  · intro h
    by_contra hc
    obtain ⟨hw, hn⟩ := not_or.1 hc
    exact h (2 ^ 32 - 1) (by omega) (not_lt.1 hw) (by omega)
  · rintro (hw | hn) i hi hle
    · omega
    · omega

end SchedPass
