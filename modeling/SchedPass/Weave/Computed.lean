import SchedPass.Weave.Operators
import SchedPass.Weave.Remap
import SchedPass.Weave.Timer

set_option autoImplicit false

/-! # What the emitted code computes

`Weaver` emits instructions, and `emitRemap`, `emitBudget` and the others say what these compute. Here each
part of the emitted code is run: its result is worth what the function of the same name gives. The
operators of a part are listed in the order of its instructions. -/

namespace SchedPass

open Machine

namespace Weaver

variable {α E : Type} {X : Machine α E} {W : Weaver} {F : Func} {v : ℕ} {vals : ℕ → Datum α}
  {known : List (Operand × Datum α)} {Task G : Operand} {task g : ℕ}

/-! ## Buffers -/

def rtBufferOps (s : RtSlot) : List Operator :=
  if s.global.isSome then [.load 8, .ne, .cast] else if s.bakedAddr = 0 then [] else [.load 8, .cast]

def emitUseOps (s : RtSlot) : List Operator := rtBufferOps s ++ ([.ult, .and] : List Operator)

section

variable (hX : X.Reads W) (hs : X.Knows F vals known)

include hX hs

theorem rtBuffer_computes {s : RtSlot} {Name : String} (hslot : X.Holds s Name) :
    X.Computes (rtBufferOps s) (W.rtBuffer s Name v) v F vals [] fun p F' vals' =>
      X.Knows F' vals' ((p.1, .int (SchedPass.rtBuffer s).1) :: (p.2, .ofBool (SchedPass.rtBuffer s).2)
        :: known) := by
  unfold rtBuffer rtBufferOps
  split_ifs with hglobal hbaked
  · obtain ⟨p, hp⟩ := Option.isSome_iff_exists.1 hglobal
    have hload : Operator.eval X.mem (.load 8) [Constant.datum X.addr (.global Name)]
        = (.int p : Datum α) := congrArg Datum.int (hslot.1 p hp)
    simp only [SchedPass.rtBuffer, hp]
    refine (Computes.create hs (.cons (hX.has_const _) .nil) hload rfl).bind fun P F vals hs => ?_
    refine (Computes.create (o := .ne) (d := .ofBool (p != 0)) hs
      (.cons (hs _ (.int p) (by simp)) (.cons (hX.has_const .nullptr) .nil)) rfl rfl).bind
      fun NonNull F vals hs => ?_
    refine (Computes.create (o := .cast) (d := .int p) hs (.cons (hs P (.int p) (by simp)) .nil) rfl rfl).bind
      fun G F vals hs => .pure (hs.subset (by simp +contextual [List.subset_def]))
  · simp only [Option.not_isSome_iff_eq_none] at hglobal
    simp only [SchedPass.rtBuffer, hglobal, hbaked, if_true]
    exact .pure ((hs.cons hX.has_getFalse).cons (hX.has_const .nullptr))
  · simp only [Option.not_isSome_iff_eq_none] at hglobal
    have hload : Operator.eval X.mem (.load 8) [Constant.datum X.addr (.global (Name ++ ".bakedslot"))]
        = (.int s.bakedAddr : Datum α) := congrArg Datum.int (hslot.2 hglobal hbaked)
    simp only [SchedPass.rtBuffer, hglobal, hbaked, if_false]
    refine (Computes.create hs (.cons (hX.has_const _) .nil) hload rfl).bind fun AddrV F vals hs => ?_
    refine (Computes.create (o := .cast) (d := .int s.bakedAddr) hs
      (.cons (hs AddrV (.int s.bakedAddr) (by simp)) .nil) rfl rfl).bind fun P F vals hs => ?_
    exact .pure ((hs.cons hX.has_getTrue).subset (by simp +contextual [List.subset_def]))

/-- A buffer that is armed, for a task within the tables. -/
theorem emitUse_computes {s : RtSlot} {Name : String} (hslot : X.Holds s Name)
    (hmax : W.C.maxTasks < 2 ^ 32) (hTask : (Task, .int task) ∈ known) :
    X.Computes (emitUseOps s) (W.emitUse s Name v Task) v F vals [] fun p F' vals' =>
      X.Knows F' vals' ((p.1, .int (SchedPass.rtBuffer s).1) ::
        (p.2, .ofBool ((SchedPass.rtBuffer s).2 && decide (task < W.C.maxTasks))) :: known) := by
  refine (rtBuffer_computes hX hs hslot).bind fun p F vals hs => ?_
  refine (Computes.create (o := .ult) (d := .ofBool (decide (task < W.C.maxTasks))) hs
    (.cons (hs _ (.int task) (by simp [hTask])) (.cons (hX.has_getInt hmax) .nil)) rfl rfl).bind
    fun InB F vals hs => ?_
  refine (Computes.create (o := .and) hs (.cons (hs _ (.ofBool (SchedPass.rtBuffer s).2) (by simp))
    (.cons (hs _ (.ofBool (decide (task < W.C.maxTasks))) (by simp)) .nil))
    (Operator.eval_and_ofBool ..) rfl).bind fun Use F vals hs => ?_
  exact .pure (hs.subset (by simp +contextual [List.subset_def]))

end

/-! ## The gate of the timer -/

/-- The new block of `readTimerOff`. -/
abbrev emitOff (W : Weaver) (FlagTerm : ℕ) (Ctrl : Operand) : Emit Operand := do
  let FlagsP ← create FlagTerm .other .other [Ctrl, W.getInt 64 kCtrlFlagsOff]
  let Flags ← create FlagTerm .load (.int 32) [FlagsP]
  let Bit ← create FlagTerm .binaryOperator (.int 32) [Flags, W.getInt 32 kCtrlFlagTimerOff]
  create FlagTerm (.icmp false) (.int 1) [Bit, W.getInt 32 0]

def emitOffOps : List Operator := [.gep 1, .load 4, .and, .ne]

def readTimerOffOps (W : Weaver) : List Operator :=
  if !rtAvailable W.R.ctrl then [] else rtBufferOps W.R.ctrl ++ Operator.under emitOffOps 1

theorem readTimerOff_eq : W.readTimerOff v = if !rtAvailable W.R.ctrl then return W.getFalse
    else W.rtBuffer W.R.ctrl kCtrlSym v >>= fun p =>
      joinIf v p.2 (.int 1) (fun FlagTerm => W.emitOff FlagTerm p.1) W.getFalse := rfl

section

variable (hX : X.Reads W) (hs : X.Knows F vals known)

include hX hs

theorem emitOff_computes {ctrl : ℕ} (hG : (G, .int ctrl) ∈ known) :
    X.Computes emitOffOps (W.emitOff v G) v F vals [] fun x F' vals' =>
      X.Has F' vals' x (.ofBool (X.mem.load32 (ctrl + kCtrlFlagsOff) &&& kCtrlFlagTimerOff != 0)) := by
  refine (Computes.create (o := .gep 1) (d := .int (ctrl + kCtrlFlagsOff)) hs
    (.cons (hs _ _ hG) (.cons (hX.has_getInt (by decide)) .nil)) (Operator.eval_gep_one ..) rfl).bind
    fun FlagsP F vals hs => ?_
  refine (Computes.create (o := .load 4) (d := .int (X.mem.load32 (ctrl + kCtrlFlagsOff))) hs
    (.cons hs.head .nil) rfl rfl).bind fun Flags F vals hs => ?_
  refine (Computes.create (o := .and)
    (d := .int (X.mem.load32 (ctrl + kCtrlFlagsOff) &&& kCtrlFlagTimerOff)) hs
    (.cons hs.head (.cons (hX.has_getInt (by decide)) .nil)) rfl rfl).bind fun Bit F vals hs => ?_
  exact (Computes.create (o := .ne) hs (.cons hs.head (.cons (hX.has_zero 32) .nil)) rfl rfl).mono
    fun x F' vals' hs => hs.head

/-- **The gate of the timer is what `readTimerOff` says.** -/
theorem readTimerOff_computes (hctrl : X.Holds W.R.ctrl kCtrlSym) :
    X.Computes W.readTimerOffOps (W.readTimerOff v) v F vals [] fun x F' vals' =>
      X.Has F' vals' x (.ofBool (SchedPass.readTimerOff W.R X.mem)) := by
  rw [readTimerOff_eq]
  unfold readTimerOffOps SchedPass.readTimerOff
  cases havail : rtAvailable W.R.ctrl with
  | false => exact .pure hX.has_getFalse
  | true =>
      refine (rtBuffer_computes hX hs hctrl).bind fun p F vals hs => ?_
      refine .mono (joinIf_computes hs hs.tail.head hX.has_getFalse fun F₁ hs₁ =>
        emitOff_computes hX hs₁ (List.mem_cons_self ..)) fun x F' vals' hx => ?_
      cases harmed : (SchedPass.rtBuffer W.R.ctrl).2 <;> simpa [harmed] using hx

end

/-! ## Rows -/

def emitRowOffOps : List Operator := [.cast, .mul, .add]

/-- The new block of `emitBudget`. -/
abbrev emitTau (W : Weaver) (ThenTerm : ℕ) (G Task : Operand) : Emit Operand := do
  let RowOff ← W.emitRowOff ThenTerm Task
  let TauOff ← create ThenTerm .binaryOperator (.int 64) [RowOff, W.getInt 64 kCtrlRowTauOff]
  let TauP ← create ThenTerm .other .other [G, TauOff]
  let Tau16 ← create ThenTerm .load (.int 16) [TauP]
  let Tau ← create ThenTerm (.cast .zext) (.int 32) [Tau16]
  let NoCap ← create ThenTerm (.icmp false) (.int 1) [Tau, W.getInt 32 0]
  create ThenTerm .select (.int 32) [NoCap, W.noBudget, Tau]

def emitTauOps : List Operator :=
  emitRowOffOps ++ ([.add, .gep 1, .load 2, .cast, .eq, .select] : List Operator)

def emitBudgetOps (W : Weaver) : List Operator := emitUseOps W.R.ctrl ++ Operator.under emitTauOps 1

theorem emitBudget_eq : W.emitBudget v Task = W.emitUse W.R.ctrl kCtrlSym v Task >>= fun p =>
    joinIf v p.2 (.int 32) (fun ThenTerm => W.emitTau ThenTerm p.1 Task) W.noBudget := by
  simp only [emitBudget, joinIf, underIf, emitTau, bind_assoc]

section

variable (hX : X.Reads W) (hs : X.Knows F vals known) (htask : task < 2 ^ 32)

include hX

theorem has_noBudget : X.Has F vals W.noBudget (.int noCap) :=
  hX.has_getInt (m := noCap) (by decide)

include hs

include htask

theorem emitRowOff_computes (hTask : (Task, .int task) ∈ known) :
    X.Computes emitRowOffOps (W.emitRowOff v Task) v F vals [] fun x F' vals' =>
      X.Has F' vals' x (.int (rowOff task)) := by
  have hmul : task * kCtrlRowSize % 2 ^ 64 = task * kCtrlRowSize :=
    Nat.mod_eq_of_lt (by unfold kCtrlRowSize; omega)
  have hadd : (task * kCtrlRowSize + kCtrlRowsOff) % 2 ^ 64 = rowOff task :=
    Nat.mod_eq_of_lt (by unfold kCtrlRowSize kCtrlRowsOff; omega)
  refine (Computes.create (o := .cast) (d := .int task) hs (.cons (hs _ _ hTask) .nil) rfl rfl).bind
    fun Task64 F vals hs => ?_
  refine (Computes.create (o := .mul) hs (.cons hs.head (.cons (hX.has_getInt (by decide)) .nil))
    (congrArg Datum.int hmul) rfl).bind fun Rows F vals hs => ?_
  exact (Computes.create (o := .add) hs (.cons hs.head (.cons (hX.has_getInt (by decide)) .nil))
    (congrArg Datum.int hadd) rfl).mono fun x F' vals' hs => hs.head

theorem emitTau_computes (hG : (G, .int g) ∈ known) (hTask : (Task, .int task) ∈ known) :
    X.Computes emitTauOps (W.emitTau v G Task) v F vals [] fun x F' vals' =>
      X.Has F' vals' x (.int (capOf (loadTau X.mem g task))) := by
  have hadd : (rowOff task + kCtrlRowTauOff) % 2 ^ 64 = rowOff task + kCtrlRowTauOff :=
    Nat.mod_eq_of_lt (by unfold rowOff kCtrlRowSize kCtrlRowsOff kCtrlRowTauOff; omega)
  have hcap : Operator.eval X.mem .select [.ofBool (loadTau X.mem g task == 0), .int noCap,
      .int (loadTau X.mem g task)] = (.int (capOf (loadTau X.mem g task)) : Datum α) := by
    rw [Operator.eval_select, capOf]
    by_cases hzero : loadTau X.mem g task = 0 <;> simp [hzero]
  refine ((emitRowOff_computes hX hs htask hTask).knowing hs).bind fun RowOff F vals hs => ?_
  obtain ⟨hs, hRowOff⟩ := hs
  refine (Computes.create (o := .add) (hs.cons hRowOff) (.cons hRowOff
    (.cons (hX.has_getInt (by decide)) .nil)) (congrArg Datum.int hadd) rfl).bind fun TauOff F vals hs => ?_
  refine (Computes.create (o := .gep 1) (d := .int (g + (rowOff task + kCtrlRowTauOff))) hs
    (.cons (hs _ (.int g) (by simp [hG])) (.cons hs.head .nil)) (Operator.eval_gep_one ..) rfl).bind
    fun TauP F vals hs => ?_
  refine (Computes.create (o := .load 2) (d := .int (loadTau X.mem g task)) hs
    (.cons hs.head .nil) rfl rfl).bind fun Tau16 F vals hs => ?_
  refine (Computes.create (o := .cast) (d := .int (loadTau X.mem g task)) hs
    (.cons hs.head .nil) rfl rfl).bind fun Tau F vals hs => ?_
  refine (Computes.create (o := .eq) (d := .ofBool (loadTau X.mem g task == 0)) hs
    (.cons hs.head (.cons (hX.has_zero 32) .nil)) rfl rfl).bind fun NoCap F vals hs => ?_
  exact (Computes.create (o := .select) hs
    (.cons hs.head (.cons (has_noBudget hX) (.cons hs.tail.head .nil))) hcap rfl).mono
    fun x F' vals' hs => hs.head

/-- **The budget is what `emitBudget` says.** -/
theorem emitBudget_computes (hctrl : X.Holds W.R.ctrl kCtrlSym) (hmax : W.C.maxTasks < 2 ^ 32)
    (hTask : (Task, .int task) ∈ known) :
    X.Computes W.emitBudgetOps (W.emitBudget v Task) v F vals [] fun x F' vals' =>
      X.Has F' vals' x (.int (SchedPass.emitBudget W.C W.R X.mem task)) := by
  rw [emitBudget_eq]
  refine (emitUse_computes hX hs hctrl hmax hTask).bind fun p F vals hs => ?_
  refine .mono (joinIf_computes hs hs.tail.head (has_noBudget hX) fun F₁ hs₁ =>
    emitTau_computes hX hs₁ htask (List.mem_cons_self ..) (by simp [hTask])) fun x F' vals' hx => ?_
  unfold SchedPass.emitBudget
  rwa [apply_ite Datum.int]

end

/-! ## The policy flags -/

def policyScoreOps : List Operator :=
  [.gep 1, .loadF32, .add, .gep 1, .load 1, .fmul, .fmul, .fsub, .fsub, .fogt, .eq, .eq, .eq, .and, .or]

def emitPolicyRowOps : List Operator := .gep 1 :: .loadF32 :: (emitRowOffOps ++ policyScoreOps)

def emitPolicyFlagsOps (W : Weaver) : List Operator :=
  emitUseOps W.R.ctrl ++ Operator.under emitPolicyRowOps 2

/-- The flags of an armed row. -/
def rowFlags (C : WeaveConfig) (m : ByteMem) (G task : ℕ) : PolicyFlags :=
  let hint := m.load (G + (rowOff task + kCtrlRowHintOff)) 1
  let score := loadF32 m (G + rowOff task) * constF32 C.dT - loadF32 m (G + kCtrlLambdaOff) * constF32 C.dR
    - constF32 C.H
  { urgent := hint == kHintUrgent || (hint == kHintAuto && (Float32.Model.ofBits 0).lt score)
    polite := hint == kHintPolite }

theorem policyFlags_eq (C : WeaveConfig) (R : RtSlots) (m : ByteMem) (task : ℕ) :
    SchedPass.emitPolicyFlags C R m task =
      if (SchedPass.rtBuffer R.ctrl).2 && decide (task < C.maxTasks) then
        rowFlags C m (SchedPass.rtBuffer R.ctrl).1 task
      else { urgent := false, polite := false } := rfl

theorem emitPolicyFlags_eq : W.emitPolicyFlags v Task = W.emitUse W.R.ctrl kCtrlSym v Task >>= fun p =>
    underIf v p.2 (fun ThenTerm => W.emitPolicyRow ThenTerm p.1 Task) fun q Head Tail Then => do
      let UrgentPhi ← CreatePHI Tail (.int 1) [(Then, q.1), (Head, W.getFalse)]
      let PolitePhi ← CreatePHI Tail (.int 1) [(Then, q.2), (Head, W.getFalse)]
      return ⟨UrgentPhi, PolitePhi⟩ := rfl

section

variable (hX : X.Reads W) (hs : X.Knows F vals known) (htask : task < 2 ^ 32)

include hX hs htask

theorem emitPolicyRow_computes (hG : (G, .int g) ∈ known) (hTask : (Task, .int task) ∈ known) :
    X.Computes emitPolicyRowOps (W.emitPolicyRow v G Task) v F vals [] fun q F' vals' =>
      X.Has F' vals' q.1 (.ofBool (rowFlags W.C X.mem g task).urgent) ∧
        X.Has F' vals' q.2 (.ofBool (rowFlags W.C X.mem g task).polite) := by
  have hadd : (rowOff task + kCtrlRowHintOff) % 2 ^ 64 = rowOff task + kCtrlRowHintOff :=
    Nat.mod_eq_of_lt (by unfold rowOff kCtrlRowSize kCtrlRowsOff kCtrlRowHintOff; omega)
  refine (Computes.create (o := .gep 1) (d := .int (g + kCtrlLambdaOff)) hs
    (.cons (hs _ _ hG) (.cons (hX.has_getInt (by decide)) .nil)) (Operator.eval_gep_one ..) rfl).bind
    fun LamP F vals hs => ?_
  refine (Computes.create (o := .loadF32) (d := .float (loadF32 X.mem (g + kCtrlLambdaOff))) hs
    (.cons hs.head .nil) rfl rfl).bind fun Lam F vals hs => ?_
  refine ((emitRowOff_computes hX hs htask (by simp [hTask])).knowing hs).bind fun RowOff F vals hs => ?_
  obtain ⟨hs, hRowOff⟩ := hs
  refine (Computes.create (o := .gep 1) (d := .int (g + rowOff task)) (hs.cons hRowOff)
    (.cons (hs _ (.int g) (by simp [hG])) (.cons hRowOff .nil)) (Operator.eval_gep_one ..) rfl).bind
    fun QP F vals hs => ?_
  refine (Computes.create (o := .loadF32) (d := .float (loadF32 X.mem (g + rowOff task))) hs
    (.cons hs.head .nil) rfl rfl).bind fun Q F vals hs => ?_
  refine (Computes.create (o := .add) hs (.cons (hs _ (.int (rowOff task)) (by simp))
    (.cons (hX.has_getInt (by decide)) .nil)) (congrArg Datum.int hadd) rfl).bind fun HintOff F vals hs => ?_
  refine (Computes.create (o := .gep 1) (d := .int (g + (rowOff task + kCtrlRowHintOff))) hs
    (.cons (hs _ (.int g) (by simp [hG])) (.cons hs.head .nil)) (Operator.eval_gep_one ..) rfl).bind
    fun HintP F vals hs => ?_
  generalize hhint : X.mem.load (g + (rowOff task + kCtrlRowHintOff)) 1 = hint
  refine (Computes.create (o := .load 1) hs (.cons hs.head .nil) (congrArg Datum.int hhint) rfl).bind
    fun Hint F vals hs => ?_
  refine (Computes.create (o := .fmul) hs (.cons (hs _ (.float (loadF32 X.mem (g + rowOff task))) (by simp))
    (.cons (hX.has_const (.float (constF32 W.C.dT))) .nil)) rfl rfl).bind fun Gain F vals hs => ?_
  refine (Computes.create (o := .fmul) hs
    (.cons (hs _ (.float (loadF32 X.mem (g + kCtrlLambdaOff))) (by simp))
      (.cons (hX.has_const (.float (constF32 W.C.dR))) .nil)) rfl rfl).bind fun Price F vals hs => ?_
  refine (Computes.create (o := .fsub) hs (.cons hs.tail.head (.cons hs.head .nil)) rfl rfl).bind
    fun Net F vals hs => ?_
  refine (Computes.create (o := .fsub) hs
    (.cons hs.head (.cons (hX.has_const (.float (constF32 W.C.H))) .nil)) rfl rfl).bind
    fun Score F vals hs => ?_
  refine (Computes.create (o := .fogt) hs
    (.cons hs.head (.cons (hX.has_const (.float (constF32 (.ofNat 0)))) .nil)) rfl rfl).bind
    fun ScoreOk F vals hs => ?_
  refine (Computes.create (o := .eq) (d := .ofBool (hint == kHintAuto)) hs
    (.cons (hs _ (.int hint) (by simp)) (.cons (hX.has_getInt (by decide)) .nil)) rfl rfl).bind
    fun HintAuto F vals hs => ?_
  refine (Computes.create (o := .eq) (d := .ofBool (hint == kHintUrgent)) hs
    (.cons (hs _ (.int hint) (by simp)) (.cons (hX.has_getInt (by decide)) .nil)) rfl rfl).bind
    fun HintUrgent F vals hs => ?_
  refine (Computes.create (o := .eq) (d := .ofBool (hint == kHintPolite)) hs
    (.cons (hs _ (.int hint) (by simp)) (.cons (hX.has_getInt (by decide)) .nil)) rfl rfl).bind
    fun HintPolite F vals hs => ?_
  refine (Computes.create (o := .and) hs (.cons hs.tail.tail.head (.cons hs.tail.tail.tail.head .nil))
    (Operator.eval_and_ofBool ..) rfl).bind fun AutoOk F vals hs => ?_
  refine (Computes.create (o := .or) hs (.cons hs.tail.tail.head (.cons hs.head .nil))
    (Operator.eval_or_ofBool ..) rfl).bind fun UrgentThen F vals hs => ?_
  subst hhint
  refine .pure ⟨?_, ?_⟩
  · exact hs.head
  · exact hs.tail.tail.head

/-- **The flags are what `emitPolicyFlags` says.** -/
theorem emitPolicyFlags_computes (hctrl : X.Holds W.R.ctrl kCtrlSym) (hmax : W.C.maxTasks < 2 ^ 32)
    (hTask : (Task, .int task) ∈ known) :
    X.Computes W.emitPolicyFlagsOps (W.emitPolicyFlags v Task) v F vals [] fun p F' vals' =>
      X.Has F' vals' p.Urgent (.ofBool (SchedPass.emitPolicyFlags W.C W.R X.mem task).urgent) ∧
        X.Has F' vals' p.Polite (.ofBool (SchedPass.emitPolicyFlags W.C W.R X.mem task).polite) := by
  rw [emitPolicyFlags_eq, policyFlags_eq]
  refine (emitUse_computes hX hs hctrl hmax hTask).bind fun p F vals hs => ?_
  generalize hcond : ((SchedPass.rtBuffer W.R.ctrl).2 && decide (task < W.C.maxTasks)) = cond at hs ⊢
  suffices h : X.Computes (Operator.under emitPolicyRowOps 2) (underIf v p.2 _ _) v F vals
      (if cond then [] else []) _ by rwa [ite_self] at h
  refine underIf_computes hs hs.tail.head (fun F₁ hs₁ => emitPolicyRow_computes hX hs₁ htask
    (List.mem_cons_self ..) (by simp [hTask])) fun q F₂ vals₂ Head Tail Then hq _ hne hTail hnot hF₂ => ?_
  have hjoin := ((Func.Joined.nil hF₂).insertPHI hTail hnot (.int 1)
    [(Then, q.1), (Head, W.getFalse)]).insertPHI hTail hnot (.int 1) [(Then, q.2), (Head, W.getFalse)]
  refine ⟨[⟨F₂.next, .phi, .int 1, [], [(Then, q.1), (Head, W.getFalse)]⟩,
    ⟨F₂.next + 1, .phi, .int 1, [], [(Then, q.2), (Head, W.getFalse)]⟩], hjoin, ?_, rfl, ?_⟩
  · intro P hP r hr
    rcases List.mem_pair.1 hP with rfl | rfl <;> exact mem_join hr
  · have hlt : F₂.next < F₂.next + 1 + 1 := by omega
    cases cond with
    | true =>
        obtain ⟨⟨hU, hP⟩, -⟩ := enter_join (X := X) hne vals₂ rfl
        exact ⟨⟨hlt, hU.trans hq.1.eval_eq⟩, ⟨Nat.lt_succ_self _, hP.trans hq.2.eval_eq⟩⟩
    | false =>
        have hfalse : X.Has F vals W.getFalse (.ofBool false) := hX.has_getFalse
        obtain ⟨-, hU, hP⟩ := enter_join (X := X) hne vals rfl
        exact ⟨⟨hlt, hU.trans hfalse.eval_eq⟩, ⟨Nat.lt_succ_self _, hP.trans hfalse.eval_eq⟩⟩

end

/-! ## The task -/

def emitMappedOps (W : Weaver) : List Operator :=
  if W.C.orderIndirect then [.load 8, .ne, .cast, .select, .cast, .gep 4, .load 4, .select]
  else [.gep 4, .load 4]

/-- The inner block of `emitSizeOK`. -/
abbrev emitSizeMatch (W : Weaver) (SzTerm : ℕ) (Ctrl NTiles : Operand) : Emit Operand := do
  let OszP ← create SzTerm .other .other [Ctrl, W.getInt 64 kCtrlOrderSizeOff]
  let Osz ← create SzTerm .load (.int 32) [OszP]
  let Unchecked ← create SzTerm (.icmp false) (.int 1) [Osz, W.getInt 32 0]
  let Match ← create SzTerm (.icmp false) (.int 1) [Osz, NTiles]
  create SzTerm .binaryOperator (.int 1) [Unchecked, Match]

def emitSizeMatchOps : List Operator := [.gep 1, .load 4, .eq, .eq, .or]

def emitSizeOKOps (W : Weaver) : List Operator :=
  if !rtAvailable W.R.ctrl then [] else rtBufferOps W.R.ctrl ++ Operator.under emitSizeMatchOps 1

theorem emitSizeOK_eq {NTiles : Operand} : W.emitSizeOK v NTiles =
    if !rtAvailable W.R.ctrl then return W.getTrue
    else W.rtBuffer W.R.ctrl kCtrlSym v >>= fun p =>
      joinIf v p.2 (.int 1) (fun SzTerm => W.emitSizeMatch SzTerm p.1 NTiles) W.getTrue := rfl

/-- The outer block of `emitRemap`. -/
abbrev emitSafe (W : Weaver) (ThenTerm : ℕ) (G Pid : Operand) : Emit Operand := do
  let Mapped ← W.emitMapped ThenTerm G Pid
  let NTiles ← readSReg ThenTerm "nctaid" (axisOf W.C.slotAxis)
  let SizeOK ← W.emitSizeOK ThenTerm NTiles
  let InGrid ← create ThenTerm (.icmp true) (.int 1) [Mapped, NTiles]
  let Ok ← create ThenTerm .binaryOperator (.int 1) [InGrid, SizeOK]
  create ThenTerm .select (.int 32) [Ok, Mapped, Pid]

def emitSafeOps (W : Weaver) : List Operator :=
  W.emitMappedOps ++ .sreg :: (W.emitSizeOKOps ++ ([.ult, .and, .select] : List Operator))

def emitRemapOps (W : Weaver) : List Operator :=
  emitUseOps W.R.taskOrder ++ Operator.under W.emitSafeOps 1

theorem emitRemap_eq {Pid : Operand} : W.emitRemap v Pid =
    W.emitUse W.R.taskOrder kTaskOrderSym v Pid >>= fun p =>
      joinIf v p.2 (.int 32) (fun ThenTerm => W.emitSafe ThenTerm p.1 Pid) Pid := rfl

/-- What `emitTask` emits, before the old reads are handed the task. -/
abbrev taskCode (W : Weaver) (IP : ℕ) : Emit Operand := do
  let Pid ← readSReg IP "ctaid" (axisOf W.C.slotAxis)
  if W.remaps then W.emitRemap IP Pid else return Pid

def taskCodeOps (W : Weaver) : List Operator := .sreg :: if W.remaps then W.emitRemapOps else []

theorem emitTask_eq (h : W.IsBody = false) (OldPid : List ℕ) (IP : ℕ) :
    W.emitTask OldPid IP = W.taskCode IP >>= fun Task =>
      if W.remaps then do
        let Tail ← getParent IP
        modify fun F => OldPid.foldl (fun G v => (G.replaceAllUsesWith v Task).eraseFromParent v) F
        let F ← get
        return (Task, (((F.body Tail).find? fun I => I.op != .phi).map Instr.id).getD IP)
      else return (Task, IP) := by
  unfold emitTask taskCode
  cases W.remaps <;> simp [h]

section

variable {Pid : Operand} {pid : ℕ} (hX : X.Reads W) (hs : X.Knows F vals known)
  (hmax : W.C.maxTasks < 2 ^ 32)

include hX hs

include hmax in
theorem emitMapped_computes (hG : (G, .int g) ∈ known) (hPid : (Pid, .int pid) ∈ known) :
    X.Computes W.emitMappedOps (W.emitMapped v G Pid) v F vals [] fun x F' vals' =>
      X.Has F' vals' x (.int (orderEntry W.C.toConfig X.mem g pid)) := by
  unfold emitMappedOps emitMapped orderEntry
  split_ifs with hind
  · generalize hptr : X.mem.load64 g = ptr
    refine (Computes.create (o := .load 8) hs (.cons (hs _ _ hG) .nil) (congrArg Datum.int hptr) rfl).bind
      fun Ptr F vals hs => ?_
    refine (Computes.create (o := .ne) (d := .ofBool (ptr != 0)) hs
      (.cons hs.head (.cons (hX.has_zero 64) .nil)) rfl rfl).bind fun ChanOk F vals hs => ?_
    refine (Computes.create (o := .cast) (d := .int g) hs (.cons (hs _ (.int g) (by simp [hG])) .nil)
      rfl rfl).bind fun GInt F vals hs => ?_
    refine (Computes.create (o := .select) (d := .int (if ptr != 0 then ptr else g)) hs
      (.cons hs.tail.head (.cons hs.tail.tail.head (.cons hs.head .nil)))
      ((Operator.eval_select ..).trans (apply_ite Datum.int ..).symm) rfl).bind fun SafePtr F vals hs => ?_
    generalize hbase : (if ptr != 0 then ptr else g) = base
    rw [hbase] at hs
    refine (Computes.create (o := .cast) (d := .int base) hs (.cons hs.head .nil) rfl rfl).bind
      fun Base F vals hs => ?_
    refine (Computes.create (o := .gep 4) (d := .int (base + 4 * pid)) hs
      (.cons hs.head (.cons (hs _ (.int pid) (by simp [hPid])) .nil)) rfl rfl).bind fun GEP F vals hs => ?_
    refine (Computes.create (o := .load 4) (d := .int (tableWord X.mem base pid)) hs
      (.cons hs.head .nil) rfl rfl).bind fun Mapped F vals hs => ?_
    refine (Computes.create (o := .select) hs (.cons (hs _ (.ofBool (ptr != 0)) (by simp))
      (.cons hs.head (.cons (hX.has_getInt hmax) .nil)))
      ((Operator.eval_select ..).trans (apply_ite Datum.int ..).symm) rfl).mono fun x F' vals' hs => ?_
    subst hbase
    exact hs.head
  · refine (Computes.create (o := .gep 4) (d := .int (g + 4 * pid)) hs
      (.cons (hs _ _ hG) (.cons (hs _ _ hPid) .nil)) rfl rfl).bind fun GEP F vals hs => ?_
    exact (Computes.create (o := .load 4) (d := .int (tableWord X.mem g pid)) hs
      (.cons hs.head .nil) rfl rfl).mono fun x F' vals' hs => hs.head

variable {NTiles : Operand} {nTiles : ℕ} (hNTiles : (NTiles, .int nTiles) ∈ known)

include hNTiles

theorem emitSizeMatch_computes {ctrl : ℕ} (hG : (G, .int ctrl) ∈ known) :
    X.Computes emitSizeMatchOps (W.emitSizeMatch v G NTiles) v F vals [] fun x F' vals' =>
      X.Has F' vals' x
        (.ofBool (loadOrderSize X.mem ctrl == 0 || loadOrderSize X.mem ctrl == nTiles)) := by
  generalize hosz : loadOrderSize X.mem ctrl = osz
  refine (Computes.create (o := .gep 1) (d := .int (ctrl + kCtrlOrderSizeOff)) hs
    (.cons (hs _ _ hG) (.cons (hX.has_getInt (by decide)) .nil)) (Operator.eval_gep_one ..) rfl).bind
    fun OszP F vals hs => ?_
  refine (Computes.create (o := .load 4) hs (.cons hs.head .nil) (congrArg Datum.int hosz) rfl).bind
    fun Osz F vals hs => ?_
  refine (Computes.create (o := .eq) (d := .ofBool (osz == 0)) hs
    (.cons hs.head (.cons (hX.has_zero 32) .nil)) rfl rfl).bind fun Unchecked F vals hs => ?_
  refine (Computes.create (o := .eq) (d := .ofBool (osz == nTiles)) hs
    (.cons hs.tail.head (.cons (hs _ (.int nTiles) (by simp [hNTiles])) .nil)) rfl rfl).bind
    fun Match F vals hs => ?_
  exact (Computes.create (o := .or) hs (.cons hs.tail.head (.cons hs.head .nil))
    (Operator.eval_or_ofBool ..) rfl).mono fun x F' vals' hs => hs.head

theorem emitSizeOK_computes (hctrl : X.Holds W.R.ctrl kCtrlSym) :
    X.Computes W.emitSizeOKOps (W.emitSizeOK v NTiles) v F vals [] fun x F' vals' =>
      X.Has F' vals' x (.ofBool (orderSizeOk W.R X.mem nTiles)) := by
  rw [emitSizeOK_eq]
  unfold emitSizeOKOps orderSizeOk
  cases havail : rtAvailable W.R.ctrl with
  | false => exact .pure hX.has_getTrue
  | true =>
      refine (rtBuffer_computes hX hs hctrl).bind fun p F vals hs => ?_
      refine .mono (joinIf_computes hs hs.tail.head hX.has_getTrue fun F₁ hs₁ =>
        emitSizeMatch_computes hX hs₁ (List.mem_cons_of_mem _ (List.mem_cons_of_mem _ hNTiles))
          (List.mem_cons_self ..)) fun x F' vals' hx => ?_
      cases harmed : (SchedPass.rtBuffer W.R.ctrl).2 <;> simpa [harmed] using hx

omit hNTiles

include hmax

theorem emitSafe_computes (hctrl : X.Holds W.R.ctrl kCtrlSym) (hG : (G, .int g) ∈ known)
    (hPid : (Pid, .int pid) ∈ known) :
    X.Computes W.emitSafeOps (W.emitSafe v G Pid) v F vals [] fun x F' vals' =>
      X.Has F' vals' x (.int (selectTask (orderEntry W.C.toConfig X.mem g pid)
        (X.hw.nctaid.get (axisOf W.C.slotAxis)) pid
          (orderSizeOk W.R X.mem (X.hw.nctaid.get (axisOf W.C.slotAxis))))) := by
  generalize hentry : orderEntry W.C.toConfig X.mem g pid = mapped
  generalize hntiles : X.hw.nctaid.get (axisOf W.C.slotAxis) = nTiles
  refine ((emitMapped_computes hX hs hmax hG hPid).knowing hs).bind fun Mapped F vals hs => ?_
  obtain ⟨hs, hMapped⟩ := hs
  rw [hentry] at hMapped
  refine (Computes.nctaid hX (hs.cons hMapped) _).bind fun NTiles F vals hs => ?_
  rw [hntiles] at hs
  refine ((emitSizeOK_computes hX hs (List.mem_cons_self ..) hctrl).knowing hs).bind
    fun SizeOK F vals hs => ?_
  obtain ⟨hs, hSizeOK⟩ := hs
  refine (Computes.create (o := .ult) (d := .ofBool (decide (mapped < nTiles))) (hs.cons hSizeOK)
    (.cons hs.tail.head (.cons hs.head .nil)) rfl rfl).bind fun InGrid F vals hs => ?_
  refine (Computes.create (o := .and) hs (.cons hs.head (.cons hs.tail.head .nil))
    (Operator.eval_and_ofBool ..) rfl).bind fun Ok F vals hs => ?_
  refine (Computes.create (o := .select) hs (.cons hs.head (.cons (hs _ (.int mapped) (by simp))
    (.cons (hs _ (.int pid) (by simp [hPid])) .nil)))
    ((Operator.eval_select ..).trans (apply_ite Datum.int ..).symm) rfl).mono fun x F' vals' hs => hs.head

/-- **The task is what `emitRemap` says.** -/
theorem emitRemap_computes (horder : X.Holds W.R.taskOrder kTaskOrderSym)
    (hctrl : X.Holds W.R.ctrl kCtrlSym) (hPid : (Pid, .int pid) ∈ known) :
    X.Computes W.emitRemapOps (W.emitRemap v Pid) v F vals [] fun x F' vals' =>
      X.Has F' vals' x (.int (SchedPass.emitRemap W.C.toConfig W.R X.mem
        (X.hw.nctaid.get (axisOf W.C.slotAxis)) pid)) := by
  rw [emitRemap_eq]
  refine (emitUse_computes hX hs horder hmax hPid).bind fun p F vals hs => ?_
  refine .mono (joinIf_computes hs hs.tail.head (hs _ (.int pid) (by simp [hPid])) fun F₁ hs₁ =>
    emitSafe_computes hX hs₁ hmax hctrl (List.mem_cons_self ..)
      (List.mem_cons_of_mem _ (List.mem_cons_of_mem _ hPid))) fun x F' vals' hx => ?_
  unfold SchedPass.emitRemap
  rwa [apply_ite Datum.int]

/-- **The task of a block is the one that `weaveTask` chooses.** -/
theorem taskCode_computes (hbody : W.IsBody = false) (horder : X.Holds W.R.taskOrder kTaskOrderSym)
    (hctrl : X.Holds W.R.ctrl kCtrlSym) :
    X.Computes W.taskCodeOps (W.taskCode v) v F vals [] fun x F' vals' =>
      X.Has F' vals' x (.int (weaveTask W.C.toConfig W.R X.mem (X.hw.nctaid.get (axisOf W.C.slotAxis))
        (X.fr.ctaid.get (axisOf W.C.slotAxis)))) := by
  have hremaps : W.remaps = (W.C.indirect && rtAvailable W.R.taskOrder) := by simp [remaps, hbody]
  unfold weaveTask taskCodeOps taskCode
  rw [hremaps]
  split_ifs
  · exact (Computes.ctaid hX hs _).bind fun Pid F vals hs =>
      emitRemap_computes hX hs hmax horder hctrl (List.mem_cons_self ..)
  · exact (Computes.ctaid hX hs _).bind fun Pid F vals hs => .pure hs.head

end

/-- **The task, run.** A thread that comes to the code leaves it with the task of its block in a register,
    and with the registers of the kernel as they were. -/
theorem taskCode_runs (hX : X.Reads W) (hmax : W.C.maxTasks < 2 ^ 32) (hbody : W.IsBody = false)
    (horder : X.Holds W.R.taskOrder kTaskOrderSym) (hctrl : X.Holds W.R.ctrl kCtrlSym)
    (hF : F.WellFormed) {b : ℕ} {l post : List Instr} {I : Instr} (hat : F.At v b l I post)
    (hops : X.Does F.next W.taskCodeOps) : ∃ b' l' I' post' vals',
      (W.taskCode v F).2.At v b' l' I' post' ∧
      (X.fr.within (W.taskCode v F).2).Gets X.D X.J X.hw X.update [] b
        (((W.taskCode v F).2.body b).drop l.length) vals b' (I' :: post') vals' ∧
      SameOld F.next vals vals' ∧
      X.fr.eval X.J vals' (W.taskCode v F).1 = .int (weaveTask W.C.toConfig W.R X.mem
        (X.hw.nctaid.get (axisOf W.C.slotAxis)) (X.fr.ctaid.get (axisOf W.C.slotAxis))) := by
  have hs : X.Knows F vals [] := fun _ _ h => absurd h List.not_mem_nil
  obtain ⟨b', l', I', post', vals', hat', hgets, hsame, htask⟩ :=
    (taskCode_computes hX hs hmax hbody horder hctrl).runs hF hat hops
  exact ⟨b', l', I', post', vals', hat', hgets, hsame, htask.eval_eq⟩

/-! ## The timer -/

/-- The row that a thread updates at a return, and by how much. Only the first thread of a block does. -/
def timerUpdates (C : Config) (R : RtSlots) (m : ByteMem) (first timerOff : Bool) (task cycles : ℕ) :
    List (ℕ × ℕ) :=
  let (G, armed) := SchedPass.rtBuffer R.timer
  if first && armed && decide (task < C.maxTasks) && !timerOff then
    if C.timerIndirect then
      if m.load64 G != 0 then [(m.load64 G + 8 * task, cycles)] else []
    else [(G + 8 * task, cycles)]
  else []

/-- For the first thread they are what `emitTimer` does. -/
theorem emitTimer_eq_foldl {C : Config} {R : RtSlots} (h : (C.timer && rtAvailable R.timer) = true)
    (m : ByteMem) (timerOff : Bool) (cycles : ℕ) :
    SchedPass.emitTimer C R m timerOff task cycles = (timerUpdates C R m true timerOff task cycles).foldl
      (fun m u => atomicAdd64 m u.1 u.2) m := by
  unfold SchedPass.emitTimer timerUpdates
  simp only [h, if_true, Bool.true_and]
  split_ifs <;> rfl

theorem timerUpdates_of_not_first {C : Config} {R : RtSlots} (m : ByteMem) (timerOff : Bool) (cycles : ℕ) :
    timerUpdates C R m false timerOff task cycles = [] := by
  simp [timerUpdates]

/-- The update, where the rows are known. -/
abbrev emitRow (TB : ℕ) (Base Task Dur : Operand) : Emit PUnit := do
  let Task64 ← create TB (.cast .zext) (.int 64) [Task]
  let GEP ← create TB .other .other [Base, Task64]
  let _ ← create TB .other (.int 64) [GEP, Dur]

/-- The new block of `emitTimerAt`. -/
abbrev emitUpdate (W : Weaver) (ThenTerm : ℕ) (G Task Dur : Operand) : Emit PUnit := do
  let (TB, Base) ← W.emitTimerRows ThenTerm G
  emitRow TB Base Task Dur

def emitRowOps : List Operator := [.cast, .gep 8, .atomicAdd]

def emitUpdateOps (W : Weaver) : List Operator :=
  if W.C.timerIndirect then .load 8 :: .ne :: Operator.under (.cast :: emitRowOps) 0 else emitRowOps

theorem emitUpdate_eq {Dur : Operand} : W.emitUpdate v G Task Dur =
    if W.C.timerIndirect then do
      let Chan ← create v .load (.int 64) [G]
      let ChanOk ← create v (.icmp false) (.int 1) [Chan, W.getInt 64 0]
      SplitBlockAndInsertIfThen ChanOk v >>= fun ChanTerm =>
        create ChanTerm (.cast .other) .other [Chan] >>= fun Base => emitRow ChanTerm Base Task Dur
    else emitRow v G Task Dur := by
  unfold emitUpdate emitTimerRows
  split_ifs <;> rfl

def threadIsZeroOps (tid : Dim3) : List Operator :=
  [.read tid.x, .read tid.y, .read tid.z, .or, .or, .eq]

def createNotOps (V : Operand) : List Operator := if V.closed then [] else [.xor]

/-- At a return the clock reads `clock` and the thread is `tid`. -/
def emitTimerAtOps (W : Weaver) (TimerOff : Operand) (clock : ℕ) (tid : Dim3) : List Operator :=
  .read clock :: .sub :: (threadIsZeroOps tid ++ (rtBufferOps W.R.timer ++ .ult :: (createNotOps TimerOff ++
    .and :: .and :: .and :: Operator.under W.emitUpdateOps 0)))

section

variable (hX : X.Reads W) (hs : X.Knows F vals known)

include hX hs

theorem threadIsZero_computes (tid : Dim3) :
    X.Computes (threadIsZeroOps tid) (W.threadIsZero v) v F vals [] fun x F' vals' =>
      X.Has F' vals' x (.ofBool (tid.x ||| tid.y ||| tid.z == 0)) := by
  refine (Computes.create (o := .read tid.x) (d := .int tid.x) hs .nil rfl rfl).bind fun X F vals hs => ?_
  refine (Computes.create (o := .read tid.y) (d := .int tid.y) hs .nil rfl rfl).bind fun Y F vals hs => ?_
  refine (Computes.create (o := .read tid.z) (d := .int tid.z) hs .nil rfl rfl).bind fun Z F vals hs => ?_
  refine (Computes.create (o := .or) (d := .int (tid.x ||| tid.y)) hs
    (.cons hs.tail.tail.head (.cons hs.tail.head .nil)) rfl rfl).bind fun XY F vals hs => ?_
  refine (Computes.create (o := .or) (d := .int (tid.x ||| tid.y ||| tid.z)) hs
    (.cons hs.head (.cons hs.tail.head .nil)) rfl rfl).bind fun Or F vals hs => ?_
  exact (Computes.create (o := .eq) hs (.cons hs.head (.cons (hX.has_zero 32) .nil)) rfl rfl).mono
    fun x F' vals' hs => hs.head

variable {T0 TimerOff Base Dur : Operand} {entry clock base cycles : ℕ} {off : Bool}

omit hX in
theorem emitRow_computes (hBase : (Base, .int base) ∈ known) (hTask : (Task, .int task) ∈ known)
    (hDur : (Dur, .int cycles) ∈ known) :
    X.Computes emitRowOps (emitRow v Base Task Dur) v F vals [(base + 8 * task, cycles)]
      fun _ _ _ => True := by
  refine (Computes.create (o := .cast) (d := .int task) hs (.cons (hs _ _ hTask) .nil) rfl rfl).bind
    fun Task64 F vals hs => ?_
  refine (Computes.create (o := .gep 8) (d := .int (base + 8 * task)) hs
    (.cons (hs _ (.int base) (by simp [hBase])) (.cons hs.head .nil)) rfl rfl).bind fun GEP F vals hs => ?_
  exact (Computes.create (o := .atomicAdd) hs (.cons hs.head
    (.cons (hs _ (.int cycles) (by simp [hDur])) .nil)) rfl rfl).bind fun _ F vals hs => .pure trivial

theorem emitUpdate_computes (hG : (G, .int g) ∈ known) (hTask : (Task, .int task) ∈ known)
    (hDur : (Dur, .int cycles) ∈ known) :
    X.Computes W.emitUpdateOps (W.emitUpdate v G Task Dur) v F vals
      (if W.C.timerIndirect then if X.mem.load64 g != 0 then [(X.mem.load64 g + 8 * task, cycles)] else []
        else [(g + 8 * task, cycles)]) fun _ _ _ => True := by
  rw [emitUpdate_eq]
  unfold emitUpdateOps
  cases W.C.timerIndirect with
  | false => exact emitRow_computes hs hG hTask hDur
  | true =>
      generalize hchan : X.mem.load64 g = chan
      refine (Computes.create (o := .load 8) hs (.cons (hs _ _ hG) .nil) (congrArg Datum.int hchan) rfl).bind
        fun Chan F vals hs => ?_
      refine (Computes.create (o := .ne) (d := .ofBool (chan != 0)) hs
        (.cons hs.head (.cons (hX.has_zero 64) .nil)) rfl rfl).bind fun ChanOk F vals hs => ?_
      refine whenIf_computes hs hs.head fun F₁ hs₁ => ?_
      refine (Computes.create (o := .cast) (d := .int chan) hs₁ (.cons hs₁.tail.head .nil) rfl rfl).bind
        fun Base F vals hs => ?_
      exact emitRow_computes hs (List.mem_cons_self ..) (by simp [hTask]) (by simp [hDur])

theorem createNot_computes (hoff : (TimerOff, .ofBool off) ∈ known)
    (hclosed : TimerOff.closed = true → off = false) :
    X.Computes (createNotOps TimerOff) (W.createNot v TimerOff) v F vals [] fun x F' vals' =>
      X.Has F' vals' x (.ofBool (!off)) := by
  unfold createNot createNotOps
  split_ifs with h
  · rw [hclosed h]
    exact .pure hX.has_getTrue
  · have hxor : Operator.eval X.mem .xor [.ofBool off, .ofBool true] = (.ofBool (!off) : Datum α) := by
      cases off <;> rfl
    exact (Computes.create hs (.cons (hs _ _ hoff) (.cons hX.has_getTrue .nil)) hxor rfl).mono
      fun x F' vals' hs => hs.head

/-- **The updates at a return are those of `emitTimer`.** -/
theorem emitTimerAt_computes (htimer : X.Holds W.R.timer kTimerSym) (hmax : W.C.maxTasks < 2 ^ 32)
    (hT0 : (T0, .int entry) ∈ known) (hoff : (TimerOff, .ofBool off) ∈ known)
    (hclosed : TimerOff.closed = true → off = false) (hTask : (Task, .int task) ∈ known) (tid : Dim3) :
    X.Computes (W.emitTimerAtOps TimerOff clock tid) (W.emitTimerAt T0 TimerOff Task v) v F vals
      (timerUpdates W.C.toConfig W.R X.mem (tid.x ||| tid.y ||| tid.z == 0) off task
        ((2 ^ 64 + clock - entry) % 2 ^ 64)) fun _ _ _ => True := by
  generalize hcycles : (2 ^ 64 + clock - entry) % 2 ^ 64 = cycles
  refine (Computes.create (o := .read clock) (d := .int clock) hs .nil rfl rfl).bind fun T1 F vals hs => ?_
  refine (Computes.create (o := .sub) hs (.cons hs.head (.cons (hs _ (.int entry) (by simp [hT0])) .nil))
    (congrArg Datum.int hcycles) rfl).bind fun Dur F vals hs => ?_
  refine ((threadIsZero_computes hX hs tid).knowing hs).bind fun Tz F vals hs => ?_
  obtain ⟨hs, hTz⟩ := hs
  refine (rtBuffer_computes hX (hs.cons hTz) htimer).bind fun p F vals hs => ?_
  refine (Computes.create (o := .ult) (d := .ofBool (decide (task < W.C.maxTasks))) hs
    (.cons (hs _ (.int task) (by simp [hTask])) (.cons (hX.has_getInt hmax) .nil)) rfl rfl).bind
    fun InB F vals hs => ?_
  refine ((createNot_computes hX hs (by simp [hoff]) hclosed).knowing hs).bind fun On F vals hs => ?_
  obtain ⟨hs, hOn⟩ := hs
  refine (Computes.create (o := .and) (hs.cons hOn)
    (.cons (hs _ (.ofBool (tid.x ||| tid.y ||| tid.z == 0)) (by simp))
      (.cons (hs _ (.ofBool (SchedPass.rtBuffer W.R.timer).2) (by simp)) .nil))
    (Operator.eval_and_ofBool ..) rfl).bind fun TzArmed F vals hs => ?_
  refine (Computes.create (o := .and) hs
    (.cons hs.head (.cons (hs _ (.ofBool (decide (task < W.C.maxTasks))) (by simp)) .nil))
    (Operator.eval_and_ofBool ..) rfl).bind fun Within F vals hs => ?_
  refine (Computes.create (o := .and) hs (.cons hs.head (.cons hs.tail.tail.head .nil))
    (Operator.eval_and_ofBool ..) rfl).bind fun Ok F vals hs => ?_
  refine whenIf_computes hs hs.head fun F₁ hs₁ => ?_
  exact emitUpdate_computes (g := (SchedPass.rtBuffer W.R.timer).1) hX hs₁ (by simp) (by simp [hTask])
    (by simp)

end

end Weaver

end SchedPass
