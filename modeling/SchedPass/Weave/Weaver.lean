import SchedPass.WorkQueue.CloneSites
import SchedPass.Weave.Builder

set_option autoImplicit false

/-! # The code that the weaving emits (`Weaver` of `SchedWeave.cpp`)

What `Weaver::run` puts into a kernel or a task body, instruction by instruction: the clock and the gate
of the timer, the task, the policy flags and the budget of the task's row at the entry, the prefetches
and discards at the stream sites, the timer's update and the launch point at the returns. What the
instructions compute is in `SchedPass.Weave.Computed`. -/

namespace SchedPass

/-- A constant among the operands of new code. -/
inductive Constant
  | int (width : ℕ) (value : ℤ)
  | float (x : Float32.Model)
  | nullptr
  | global (name : String)

/-- What is woven: under which configuration, into which kind of function, and what LLVM says of it. -/
structure Weaver extends WeaveAnalyses where
  C : WeaveConfig
  R : RtSlots
  /-- `sched-task-body`: the task is the last argument. -/
  IsBody : Bool
  /-- The number of arguments. -/
  arg_size : ℕ
  smVersion : ℕ
  /-- How the constants are numbered. -/
  constant : Constant → ℕ
  isAlloca : Instr → Bool
  isReturn : Instr → Bool
  isIntegerTy64 : Operand → Bool
  /-- The argument that the first `l` constraint of an asynchronous copy binds. -/
  GmemArg : Instr → ℕ

/-- A `cp.async` with its global source. -/
structure AsyncSite where
  Copy : ℕ
  Gmem : Operand
  deriving DecidableEq, Repr

/-- The two policy flags, as values of the function. -/
structure FlagValues where
  Urgent : Operand
  Polite : Operand
  deriving DecidableEq, Repr

def kTaskOrderSym : String := "__sched_task_order"

def kCtrlSym : String := "__sched_ctrl"

def kTimerSym : String := "__sched_timer"

/-- The names of the special registers. -/
def Axis.letter : Axis → String
  | .x => "x"
  | .y => "y"
  | .z => "z"

/-! ## Looking around -/

/-- `Ld->getPointerOperand()`. -/
def getPointerOperand (v : ℕ) : Emit Operand := fun F =>
  (((F.instr v).map Instr.getPointerOperand).getD (.otherConst 0), F)

/-- `I->getNextNode()`. -/
def getNextNode (v : ℕ) : Emit (Option ℕ) := fun F =>
  ((F.getNextNode v).bind fun p => (F.body p.1)[p.2]?.map Instr.id, F)

namespace Weaver

variable (W : Weaver)

def const (c : Constant) : Operand := .otherConst (W.constant c)

def getInt (width : ℕ) (value : ℤ) : Operand := W.const (.int width value)

def getTrue : Operand := W.getInt 1 1

def getFalse : Operand := W.getInt 1 0

/-- A call of inline assembly is known by its text, as an intrinsic is by its name. -/
def createAsm (IP : ℕ) (Asm : String) (ty : Ty) (args : List Operand) : Emit Operand :=
  create IP (.call (some .other) (some Asm)) ty args

def readSReg (IP : ℕ) (name : String) (axis : Axis) : Emit Operand :=
  create IP (.call (some .other) (some ("llvm.nvvm.read.ptx.sreg." ++ name ++ "." ++ axis.letter)))
    (.int 32) []

def readClock64 (IP : ℕ) : Emit Operand := createAsm IP "mov.u64 $0, %clock64;" (.int 64) []

def threadIsZero (IP : ℕ) : Emit Operand := do
  let X ← readSReg IP "tid" .x
  let Y ← readSReg IP "tid" .y
  let Z ← readSReg IP "tid" .z
  let XY ← create IP .binaryOperator (.int 32) [X, Y]
  let Or ← create IP .binaryOperator (.int 32) [XY, Z]
  create IP (.icmp false) (.int 1) [Or, W.getInt 32 0]

/-- The buffer's address and whether it is armed: through the global, or through the slot that holds a
    baked address. -/
def rtBuffer (s : RtSlot) (Name : String) (IP : ℕ) : Emit (Operand × Operand) :=
  if s.global.isSome then do
    let P ← create IP .load .other [W.const (.global Name)]
    let NonNull ← create IP (.icmp false) (.int 1) [P, W.const .nullptr]
    let G ← create IP (.cast .other) .other [P]
    return (G, NonNull)
  else if s.bakedAddr = 0 then return (W.const .nullptr, W.getFalse)
  else do
    let AddrV ← create IP .load (.int 64) [W.const (.global (Name ++ ".bakedslot"))]
    let P ← create IP (.cast .other) .other [AddrV]
    return (P, W.getTrue)

/-! ## At the entry -/

/-- Is the timer gated off? The flag is read once, at the entry. -/
def readTimerOff (SplitPt : ℕ) : Emit Operand :=
  if !rtAvailable W.R.ctrl then return W.getFalse
  else do
    let (Ctrl, CArmed) ← W.rtBuffer W.R.ctrl kCtrlSym SplitPt
    -- the single predecessor of the new block
    let FlagHead ← getParent SplitPt
    let FlagTerm ← SplitBlockAndInsertIfThen CArmed SplitPt
    let FlagsP ← create FlagTerm .other .other [Ctrl, W.getInt 64 kCtrlFlagsOff]
    let Flags ← create FlagTerm .load (.int 32) [FlagsP]
    let Bit ← create FlagTerm .binaryOperator (.int 32) [Flags, W.getInt 32 kCtrlFlagTimerOff]
    let OffThen ← create FlagTerm (.icmp false) (.int 1) [Bit, W.getInt 32 0]
    let Tail ← getParent SplitPt
    let Then ← getParent FlagTerm
    CreatePHI Tail (.int 1) [(Then, OffThen), (FlagHead, W.getFalse)]

/-- The byte offset of a task's row. -/
def emitRowOff (TB : ℕ) (Task : Operand) : Emit Operand := do
  let Task64 ← create TB (.cast .zext) (.int 64) [Task]
  let Rows ← create TB .binaryOperator (.int 64) [Task64, W.getInt 64 kCtrlRowSize]
  create TB .binaryOperator (.int 64) [Rows, W.getInt 64 kCtrlRowsOff]

/-- The then-block of `emitPolicyFlags`: urgent or not, polite or not. -/
def emitPolicyRow (TB : ℕ) (G Task : Operand) : Emit (Operand × Operand) := do
  let LamP ← create TB .other .other [G, W.getInt 64 kCtrlLambdaOff]
  let Lam ← create TB .load .floatingPoint [LamP]
  let RowOff ← W.emitRowOff TB Task
  let QP ← create TB .other .other [G, RowOff]
  let Q ← create TB .load .floatingPoint [QP]
  let HintOff ← create TB .binaryOperator (.int 64) [RowOff, W.getInt 64 kCtrlRowHintOff]
  let HintP ← create TB .other .other [G, HintOff]
  let Hint ← create TB .load (.int 8) [HintP]
  let Gain ← create TB .binaryOperator .floatingPoint [Q, W.const (.float (constF32 W.C.dT))]
  let Price ← create TB .binaryOperator .floatingPoint [Lam, W.const (.float (constF32 W.C.dR))]
  let Net ← create TB .binaryOperator .floatingPoint [Gain, Price]
  let Score ← create TB .binaryOperator .floatingPoint [Net, W.const (.float (constF32 W.C.H))]
  let ScoreOk ← create TB (.fcmp true) (.int 1)
    [Score, W.const (.float (constF32 (.ofNat 0)))]
  let HintAuto ← create TB (.icmp false) (.int 1) [Hint, W.getInt 8 kHintAuto]
  let HintUrgent ← create TB (.icmp false) (.int 1) [Hint, W.getInt 8 kHintUrgent]
  let HintPolite ← create TB (.icmp false) (.int 1) [Hint, W.getInt 8 kHintPolite]
  let AutoOk ← create TB .binaryOperator (.int 1) [HintAuto, ScoreOk]
  let UrgentThen ← create TB .binaryOperator (.int 1) [HintUrgent, AutoOk]
  return (UrgentThen, HintPolite)

/-- A buffer that is armed, for a task (or a block) within the tables. -/
def emitUse (s : RtSlot) (Name : String) (IP : ℕ) (Task : Operand) : Emit (Operand × Operand) := do
  let (G, Armed) ← W.rtBuffer s Name IP
  let InB ← create IP (.icmp true) (.int 1) [Task, W.getInt 32 W.C.maxTasks]
  let Use ← create IP .binaryOperator (.int 1) [Armed, InB]
  return (G, Use)

def emitPolicyFlags (SplitPt : ℕ) (Task : Operand) : Emit FlagValues := do
  let (G, Use) ← W.emitUse W.R.ctrl kCtrlSym SplitPt Task
  let Head ← getParent SplitPt
  let ThenTerm ← SplitBlockAndInsertIfThen Use SplitPt
  let (UrgentThen, HintPolite) ← W.emitPolicyRow ThenTerm G Task
  let Tail ← getParent SplitPt
  let Then ← getParent ThenTerm
  let UrgentPhi ← CreatePHI Tail (.int 1) [(Then, UrgentThen), (Head, W.getFalse)]
  let PolitePhi ← CreatePHI Tail (.int 1) [(Then, HintPolite), (Head, W.getFalse)]
  return ⟨UrgentPhi, PolitePhi⟩

/-- No cap. -/
def noBudget : Operand := W.getInt 32 (2 ^ 32 - 1)

def emitBudget (SplitPt : ℕ) (Task : Operand) : Emit Operand := do
  let (G, Use) ← W.emitUse W.R.ctrl kCtrlSym SplitPt Task
  let Head ← getParent SplitPt
  let ThenTerm ← SplitBlockAndInsertIfThen Use SplitPt
  let RowOff ← W.emitRowOff ThenTerm Task
  let TauOff ← create ThenTerm .binaryOperator (.int 64) [RowOff, W.getInt 64 kCtrlRowTauOff]
  let TauP ← create ThenTerm .other .other [G, TauOff]
  let Tau16 ← create ThenTerm .load (.int 16) [TauP]
  let Tau ← create ThenTerm (.cast .zext) (.int 32) [Tau16]
  let NoCap ← create ThenTerm (.icmp false) (.int 1) [Tau, W.getInt 32 0]
  let BThen ← create ThenTerm .select (.int 32) [NoCap, W.noBudget, Tau]
  let Tail ← getParent SplitPt
  let Then ← getParent ThenTerm
  CreatePHI Tail (.int 32) [(Then, BThen), (Head, W.noBudget)]

/-! ## The task -/

/-- The word of the order table for the block, and the word to be taken where the table's pointer is
    not set. -/
def emitMapped (TB : ℕ) (G Pid : Operand) : Emit Operand :=
  if W.C.orderIndirect then do
    let Ptr ← create TB .load (.int 64) [G]
    let ChanOk ← create TB (.icmp false) (.int 1) [Ptr, W.getInt 64 0]
    let GInt ← create TB (.cast .other) (.int 64) [G]
    let SafePtr ← create TB .select (.int 64) [ChanOk, Ptr, GInt]
    let Base ← create TB (.cast .other) .other [SafePtr]
    let GEP ← create TB .other .other [Base, Pid]
    let Mapped ← create TB .load (.int 32) [GEP]
    create TB .select (.int 32) [ChanOk, Mapped, W.getInt 32 W.C.maxTasks]
  else do
    let GEP ← create TB .other .other [G, Pid]
    create TB .load (.int 32) [GEP]

/-- Was the installed order built for this many tiles? -/
def emitSizeOK (TB : ℕ) (NTiles : Operand) : Emit Operand :=
  if !rtAvailable W.R.ctrl then return W.getTrue
  else do
    let (Ctrl, CArmed) ← W.rtBuffer W.R.ctrl kCtrlSym TB
    let SzHead ← getParent TB
    let SzTerm ← SplitBlockAndInsertIfThen CArmed TB
    let OszP ← create SzTerm .other .other [Ctrl, W.getInt 64 kCtrlOrderSizeOff]
    let Osz ← create SzTerm .load (.int 32) [OszP]
    let Unchecked ← create SzTerm (.icmp false) (.int 1) [Osz, W.getInt 32 0]
    let Match ← create SzTerm (.icmp false) (.int 1) [Osz, NTiles]
    let OkThen ← create SzTerm .binaryOperator (.int 1) [Unchecked, Match]
    let SzTail ← getParent TB
    let Then ← getParent SzTerm
    CreatePHI SzTail (.int 1) [(Then, OkThen), (SzHead, W.getTrue)]

def emitRemap (SplitPt : ℕ) (Pid : Operand) : Emit Operand := do
  let (G, Use) ← W.emitUse W.R.taskOrder kTaskOrderSym SplitPt Pid
  let Head ← getParent SplitPt
  let ThenTerm ← SplitBlockAndInsertIfThen Use SplitPt
  let Mapped ← W.emitMapped ThenTerm G Pid
  let NTiles ← readSReg ThenTerm "nctaid" (axisOf W.C.slotAxis)
  let SizeOK ← W.emitSizeOK ThenTerm NTiles
  let InGrid ← create ThenTerm (.icmp true) (.int 1) [Mapped, NTiles]
  let Ok ← create ThenTerm .binaryOperator (.int 1) [InGrid, SizeOK]
  let Safe ← create ThenTerm .select (.int 32) [Ok, Mapped, Pid]
  let Tail ← getParent SplitPt
  let Then ← getParent ThenTerm
  CreatePHI Tail (.int 32) [(Then, Safe), (Head, Pid)]

/-! ## At the stream sites -/

/-- A prefetch some iterations ahead, in front of the load. -/
def emitPrefetchAhead (S : PrefetchSite) (Flag : Operand) (Asm : String) : Emit PUnit := do
  let P ← SchedPass.getPointerOperand S.Load
  let Ahead ← create S.Load .other .other [P, W.getInt 64 (S.StepBytes * W.C.prefetchDist)]
  let ThenTerm ← SplitBlockAndInsertIfThen Flag S.Load
  let _ ← createAsm ThenTerm Asm .other [Ahead]

/-- A discard of the line behind the load. The instruction wants an aligned address. -/
def emitDiscardAfter (S : PrefetchSite) (Flag : Operand) : Emit PUnit := do
  match ← SchedPass.getNextNode S.Load with
  | none => return
  | some After =>
      let P ← SchedPass.getPointerOperand S.Load
      let ThenTerm ← SplitBlockAndInsertIfThen Flag After
      let Pi ← create ThenTerm (.cast .other) (.int 64) [P]
      let Aligned ← create ThenTerm .binaryOperator (.int 64) [Pi, W.getInt 64 (-128)]
      let AP ← create ThenTerm (.cast .other) .other [Aligned]
      let _ ← createAsm ThenTerm "discard.global.L2 [$0], 128;" .other [AP]

def emitPrefetch (S : PrefetchSite) (Flags : FlagValues) : Emit PUnit :=
  if 80 ≤ W.smVersion then do
    W.emitPrefetchAhead S Flags.Urgent "prefetch.global.L2::evict_last [$0];"
    W.emitDiscardAfter S Flags.Polite
  else do
    let Any ← create S.Load .binaryOperator (.int 1) [Flags.Urgent, Flags.Polite]
    W.emitPrefetchAhead S Any "prefetch.L2 [$0];"

def emitAsyncPrefetch (A : AsyncSite) (Urgent : Operand) : Emit PUnit :=
  if W.smVersion < 80 then return
  else do
    let ThenTerm ← SplitBlockAndInsertIfThen Urgent A.Copy
    let G ← if W.isIntegerTy64 A.Gmem then pure A.Gmem
      else create ThenTerm (.cast .other) (.int 64) [A.Gmem]
    let _ ← createAsm ThenTerm "prefetch.global.L2::evict_last [$0];" .other [G]

/-! ## At the returns -/

/-- The return instructions: terminators without a successor. -/
def returns (F : Func) : List ℕ :=
  F.blocks.filterMap fun b =>
    ((F.body b).getLast?.filter fun I => I.op == .terminator && (F.cfg.succ b).isEmpty
      && W.isReturn I).map Instr.id

/-- `CreateNot`; the one constant that is negated is `false`, and that is folded. -/
def createNot (IP : ℕ) (x : Operand) : Emit Operand :=
  if x.closed then return W.getTrue else create IP .binaryOperator (.int 1) [x, W.getTrue]

/-- The rows: the buffer, or what its first word points to, in a block of its own. -/
def emitTimerRows (ThenTerm : ℕ) (G : Operand) : Emit (ℕ × Operand) :=
  if W.C.timerIndirect then do
    let Chan ← create ThenTerm .load (.int 64) [G]
    let ChanOk ← create ThenTerm (.icmp false) (.int 1) [Chan, W.getInt 64 0]
    let ChanTerm ← SplitBlockAndInsertIfThen ChanOk ThenTerm
    let Base ← create ChanTerm (.cast .other) .other [Chan]
    return (ChanTerm, Base)
  else return (ThenTerm, G)

/-- The block's cycles are added to the task's row by one thread. -/
def emitTimerAt (T0 TimerOff Task : Operand) (RI : ℕ) : Emit PUnit := do
  let T1 ← readClock64 RI
  let Dur ← create RI .binaryOperator (.int 64) [T1, T0]
  let Tz ← W.threadIsZero RI
  let (G, Armed) ← W.rtBuffer W.R.timer kTimerSym RI
  let InB ← create RI (.icmp true) (.int 1) [Task, W.getInt 32 W.C.maxTasks]
  let On ← W.createNot RI TimerOff
  let TzArmed ← create RI .binaryOperator (.int 1) [Tz, Armed]
  let Within ← create RI .binaryOperator (.int 1) [TzArmed, InB]
  let Ok ← create RI .binaryOperator (.int 1) [Within, On]
  let ThenTerm ← SplitBlockAndInsertIfThen Ok RI
  let (TB, Base) ← W.emitTimerRows ThenTerm G
  let Task64 ← create TB (.cast .zext) (.int 64) [Task]
  let GEP ← create TB .other .other [Base, Task64]
  -- `atomicrmw add`
  let _ ← create TB .other (.int 64) [GEP, Dur]

def emitTimer (T0 TimerOff Task : Operand) : Emit PUnit := do
  let Rets := W.returns (← get)
  forM Rets fun RI => W.emitTimerAt T0 TimerOff Task RI

def emitPDL (IP : ℕ) : Emit PUnit := do
  let _ ← createAsm IP "griddepcontrol.wait;" .other []
  let Rets := W.returns (← get)
  forM Rets fun RI => do
    let _ ← createAsm RI "griddepcontrol.launch_dependents;" .other []

/-! ## The whole function -/

/-- Behind the PHIs and the allocas of the entry. -/
def insertionPoint (F : Func) : Option ℕ :=
  (((F.body F.cfg.entry).dropWhile fun I => I.op == .phi).dropWhile fun I =>
    I.op == .other && W.isAlloca I).head?.map Instr.id

/-- The asynchronous copies, with their sources. -/
def asyncSites (F : Func) : List AsyncSite :=
  (W.findAsyncStreamSites F).map fun v =>
    ⟨v, ((F.instr v).bind fun I => I.args[W.GmemArg I]?).getD (.otherConst 0)⟩

/-- The loads to prefetch for and to mask. -/
def sites (F : Func) : List PrefetchSite :=
  if (W.C.policy || W.C.shed) && rtAvailable W.R.ctrl then W.findPrefetchSites W.C.toConfig F else []

/-- The copies to prefetch for. -/
def copies (F : Func) : List AsyncSite :=
  if W.C.policy && rtAvailable W.R.ctrl then W.asyncSites F else []

/-- The clock and the gate of the timer. -/
def emitClock (IP : ℕ) : Emit (Option (Operand × Operand)) :=
  if W.C.timer && rtAvailable W.R.timer then do
    let T0 ← readClock64 IP
    let TimerOff ← W.readTimerOff IP
    return some (T0, TimerOff)
  else return none

/-- Is the block index handed to the task? -/
def remaps : Bool := !W.IsBody && W.C.indirect && rtAvailable W.R.taskOrder

/-- The task, with the point where the builder is left. -/
def emitTask (OldPid : List ℕ) (IP : ℕ) : Emit (Operand × ℕ) :=
  if W.IsBody then return (.arg (W.arg_size - 1), IP)
  else do
    let Pid ← readSReg IP "ctaid" (axisOf W.C.slotAxis)
    if W.remaps then do
      let Task ← W.emitRemap IP Pid
      let Tail ← getParent IP
      modify fun F => OldPid.foldl (fun G v => (G.replaceAllUsesWith v Task).eraseFromParent v) F
      -- the instruction that the builder stood at may be erased
      let F ← get
      return (Task, (((F.body Tail).find? fun I => I.op != .phi).map Instr.id).getD IP)
    else return (Pid, IP)

/-- The policy flags, where there are sites. -/
def emitFlags (Sites : List PrefetchSite) (AsyncSites : List AsyncSite) (IP : ℕ) (Task : Operand) :
    Emit (Option FlagValues) :=
  if W.C.policy && !(Sites.isEmpty && AsyncSites.isEmpty) then do
    let Flags ← W.emitPolicyFlags IP Task
    return some Flags
  else return none

/-- Are there loads to mask? -/
def sheds (Sites : List PrefetchSite) : Bool := W.C.shed && !Sites.isEmpty

/-- The shed masks. -/
def emitShed (Sites : List PrefetchSite) (IP : ℕ) (Task : Operand) : Emit PUnit :=
  if W.sheds Sites then do
    let Budget ← W.emitBudget IP Task
    modify fun F => W.emitShedAll F (Sites.map PrefetchSite.Load) Budget
  else return

/-- The prefetches and discards at all sites. -/
def emitHints (Sites : List PrefetchSite) (AsyncSites : List AsyncSite) :
    Option FlagValues → Emit PUnit
  | none => return
  | some Flags => do
      forM Sites fun S => W.emitPrefetch S Flags
      forM AsyncSites fun A => W.emitAsyncPrefetch A Flags.Urgent

/-- The timer's updates, where there is a clock. -/
def emitTimers (Clock : Option (Operand × Operand)) (Task : Operand) : Emit PUnit :=
  match Clock with
  | none => return
  | some (T0, TimerOff) => W.emitTimer T0 TimerOff Task

/-- The launch points of kernels for compute capability 9.0 and up. -/
def emitLaunchPoints (IP : ℕ) : Emit PUnit :=
  if W.C.pdl && 90 ≤ W.smVersion && !W.IsBody then W.emitPDL IP else return

/-- `Weaver::run`: was anything woven? -/
def run : Emit Bool := do
  let F ← get
  let Sites := W.sites F
  let AsyncSites := W.copies F
  let OldPid := F.ctaidReads (axisOf W.C.slotAxis)
  match W.insertionPoint F with
  | none => return false
  | some IP =>
      let Clock ← W.emitClock IP
      let (Task, IP) ← W.emitTask OldPid IP
      let Flags ← W.emitFlags Sites AsyncSites IP Task
      W.emitShed Sites IP Task
      W.emitHints Sites AsyncSites Flags
      W.emitTimers Clock Task
      W.emitLaunchPoints IP
      return true

end Weaver

end SchedPass
