import SchedPass.Jit.FromEnv
import SchedPass.Plane.Consistent
import SchedPass.Plane.Windows
import SchedPass.Weave.Timer
import SchedPass.WorkQueue.Driver

set_option autoImplicit false

/-! # What woven code accesses

`DeviceOp` lists the operations of woven code on the plane's tables. Each has its result, its effect on
memory and the accesses that it makes; it reads nothing but these (`DeviceOp.result_congr`) and changes
nothing but these (`DeviceOp.agreesOff_exec`). With the slots of a plane, a bound that is at most its
capacity and channel words that lead to its buffers, each access is to its own table
(`DeviceOp.covered`). -/

namespace SchedPass

/-! ## Accesses -/

/-- An access of woven code: the table that it is for, the address and the number of bytes. -/
structure Access where
  table : Table
  addr : ℕ
  width : ℕ
  deriving DecidableEq, Repr

def Access.span (x : Access) : Span := ⟨x.addr, x.width⟩

/-- The memories agree on everything accessed. -/
def AgreeOn (l : List Access) (m m' : ByteMem) : Prop :=
  ∀ x ∈ l, ∀ a, x.span.Covers a 1 → m' a = m a

/-- The slots of a kernel that declares no `__sched_*` global. -/
def BakedConfig.slots (B : BakedConfig) : RtSlots where
  taskOrder := { bakedAddr := B.bakeOrder }
  ctrl := { bakedAddr := B.bakeCtrl }
  queue := { bakedAddr := B.bakeQueue }
  timer := { bakedAddr := B.bakeTimer }

/-! ## The operations -/

/-- The ticket claim: the ticket and the memory behind it. -/
def emitClaimTicket (R : RtSlots) (m : ByteMem) : ℕ × ByteMem :=
  let G := (rtBuffer R.queue).1
  let (ticket, counter) := ticketClaim (m.load32 G)
  (ticket, m.store G (ByteMem.toBytes 4 counter))

/-- An operation of woven code on the tables: of the plain weave, then of the work-queue driver. -/
inductive DeviceOp
  | weaveTask (nTiles pid : ℕ)
  | policyFlags (task : ℕ)
  | budget (task : ℕ)
  | timerOff
  | timer (off : Bool) (task cycles : ℕ)
  | dispatch (useCLC : Bool) (nctaid ctaid : Dim3)
  | orderRemap (raw : ℕ)
  | claimTicket
  deriving DecidableEq, Repr

/-- What an operation gives to the code behind it. -/
inductive DeviceResult
  | task (t : ℕ)
  | flags (f : PolicyFlags)
  | budget (b : ℕ)
  | gate (off : Bool)
  | target (d : Dispatch)
  | none
  deriving DecidableEq, Repr

def orderEntryAccesses (C : Config) (m : ByteMem) (G pid : ℕ) : List Access :=
  if C.orderIndirect then
    let ptr := m.load64 G
    let base := if ptr != 0 then ptr else G
    [⟨.order, G, 8⟩, ⟨.order, base + 4 * pid, 4⟩]
  else
    [⟨.order, G + 4 * pid, 4⟩]

/-- A 32-bit word of the control block, where that is armed. -/
def ctrlAccesses (R : RtSlots) (off : ℕ) : List Access :=
  if rtAvailable R.ctrl then
    let (ctrl, cArmed) := rtBuffer R.ctrl
    if cArmed then [⟨.ctrl, ctrl + off, 4⟩] else []
  else
    []

def timerAccesses (C : Config) (R : RtSlots) (m : ByteMem) (timerOff : Bool) (task : ℕ) : List Access :=
  if C.timer && rtAvailable R.timer then
    let (G, armed) := rtBuffer R.timer
    if armed && decide (task < C.maxTasks) && !timerOff then
      if C.timerIndirect then
        let chan := m.load64 G
        ⟨.timer, G, 8⟩ :: if chan != 0 then [⟨.timer, chan + 8 * task, 8⟩] else []
      else
        [⟨.timer, G + 8 * task, 8⟩]
    else
      []
  else
    []

namespace DeviceOp

variable (B : BakedConfig) (m : ByteMem)

def result : DeviceOp → DeviceResult
  | weaveTask nTiles pid => .task (SchedPass.weaveTask B.toConfig B.slots m nTiles pid)
  | policyFlags task => .flags (emitPolicyFlags B.toWeaveConfig B.slots m task)
  | budget task => .budget (emitBudget B.toWeaveConfig B.slots m task)
  | timerOff => .gate (readTimerOff B.slots m)
  | timer .. => .none
  | dispatch useCLC nctaid ctaid =>
      .target (SchedPass.dispatch useCLC B.toConfig B.slots m nctaid ctaid)
  | orderRemap raw => .task (emitOrderRemap B.toConfig B.slots m raw)
  | claimTicket => .task (emitClaimTicket B.slots m).1

/-- The memory behind the operation. -/
def exec : DeviceOp → ByteMem
  | timer off task cycles => emitTimer B.toConfig B.slots m off task cycles
  | claimTicket => (emitClaimTicket B.slots m).2
  | _ => m

/-- The accesses, under the conditions that the code has around them. -/
def accesses : DeviceOp → List Access
  | weaveTask _ pid =>
      if B.indirect && rtAvailable B.slots.taskOrder then
        let (G, armed) := rtBuffer B.slots.taskOrder
        if armed && decide (pid < B.maxTasks) then
          orderEntryAccesses B.toConfig m G pid ++ ctrlAccesses B.slots kCtrlOrderSizeOff
        else
          []
      else
        []
  | policyFlags task =>
      let (G, armed) := rtBuffer B.slots.ctrl
      if armed && decide (task < B.maxTasks) then
        [⟨.ctrl, G + kCtrlLambdaOff, 4⟩, ⟨.ctrl, G + rowOff task, 4⟩,
          ⟨.ctrl, G + (rowOff task + kCtrlRowHintOff), 1⟩]
      else
        []
  | budget task =>
      let (G, armed) := rtBuffer B.slots.ctrl
      if armed && decide (task < B.maxTasks) then
        [⟨.ctrl, G + (rowOff task + kCtrlRowTauOff), 2⟩]
      else
        []
  | timerOff => ctrlAccesses B.slots kCtrlFlagsOff
  | timer off task _ => timerAccesses B.toConfig B.slots m off task
  | dispatch useCLC nctaid _ =>
      let armed := if useCLC then (rtBuffer B.slots.ctrl).2
        else (rtBuffer B.slots.queue).2 && (rtBuffer B.slots.ctrl).2
      if armed && decide (Grid1D B.toConfig nctaid) then
        [⟨.ctrl, (rtBuffer B.slots.ctrl).1 + kCtrlNumTasksOff, 4⟩]
      else
        []
  | orderRemap raw =>
      if !rtAvailable B.slots.taskOrder || !B.indirect then
        []
      else
        let (order, armed) := rtBuffer B.slots.taskOrder
        if armed && decide (raw < B.maxTasks) then
          [⟨.order, order + 4 * raw, 4⟩, ⟨.ctrl, (rtBuffer B.slots.ctrl).1 + kCtrlNumTasksOff, 4⟩,
            ⟨.ctrl, (rtBuffer B.slots.ctrl).1 + kCtrlOrderSizeOff, 4⟩]
        else
          []
  | claimTicket => [⟨.queue, (rtBuffer B.slots.queue).1, 4⟩]

end DeviceOp

variable {B : BakedConfig} {C : Config} {R : RtSlots} {m m' : ByteMem} {l l' : List Access}

/-! ## Nothing else is read -/

theorem AgreeOn.mono (h : AgreeOn l m m') (hsub : l' ⊆ l) : AgreeOn l' m m' :=
  fun x hx => h x (hsub hx)

theorem AgreeOn.load (h : AgreeOn l m m') {x : Access} (hx : x ∈ l) :
    m'.load x.addr x.width = m.load x.addr x.width :=
  ByteMem.load_congr fun i hlo hhi =>
    h x hx i (Span.Covers.byte (a := x.addr) (n := x.width) ⟨le_rfl, le_rfl⟩ hlo hhi)

theorem orderEntry_congr {G pid : ℕ} (h : AgreeOn (orderEntryAccesses C m G pid) m m') :
    orderEntry C m' G pid = orderEntry C m G pid := by
  cases hind : C.orderIndirect with
  | false =>
      have hentry : tableWord m' G pid = tableWord m G pid :=
        h.load (x := ⟨.order, G + 4 * pid, 4⟩) (by simp [orderEntryAccesses, hind])
      simp only [orderEntry, hind, Bool.false_eq_true, if_false, hentry]
  | true =>
      have hptr : m'.load64 G = m.load64 G :=
        h.load (x := ⟨.order, G, 8⟩) (by simp [orderEntryAccesses, hind])
      have hentry : ∀ base, base = (if m.load64 G != 0 then m.load64 G else G) →
          tableWord m' base pid = tableWord m base pid := by
        intro base hbase
        rw [hbase]
        exact h.load (x := ⟨.order, _ + 4 * pid, 4⟩) (by simp [orderEntryAccesses, hind])
      simp only [orderEntry, hind, if_true, hptr, hentry _ rfl]

/-- A word of an armed control block. -/
theorem load_ctrl_congr {off : ℕ} (h : AgreeOn (ctrlAccesses R off) m m')
    (havail : rtAvailable R.ctrl = true) (harmed : (rtBuffer R.ctrl).2 = true) :
    m'.load32 ((rtBuffer R.ctrl).1 + off) = m.load32 ((rtBuffer R.ctrl).1 + off) :=
  h.load (x := ⟨.ctrl, (rtBuffer R.ctrl).1 + off, 4⟩) (by simp [ctrlAccesses, havail, harmed])

theorem orderSizeOk_congr {nTiles : ℕ} (h : AgreeOn (ctrlAccesses R kCtrlOrderSizeOff) m m') :
    orderSizeOk R m' nTiles = orderSizeOk R m nTiles := by
  unfold orderSizeOk
  split
  · next havail =>
      by_cases harmed : (rtBuffer R.ctrl).2 = true
      · simp only [harmed, if_true, loadOrderSize, load_ctrl_congr h havail harmed]
      · simp only [harmed, Bool.false_eq_true, if_false]
  · rfl

theorem readTimerOff_congr (h : AgreeOn (ctrlAccesses R kCtrlFlagsOff) m m') :
    readTimerOff R m' = readTimerOff R m := by
  unfold readTimerOff
  split
  · next havail =>
      by_cases harmed : (rtBuffer R.ctrl).2 = true
      · simp only [harmed, if_true, load_ctrl_congr h havail harmed]
      · simp only [harmed, Bool.false_eq_true, if_false]
  · rfl

theorem weaveTask_congr {nTiles pid : ℕ} (h : AgreeOn (DeviceOp.accesses B m (.weaveTask nTiles pid)) m m') :
    weaveTask B.toConfig B.slots m' nTiles pid = weaveTask B.toConfig B.slots m nTiles pid := by
  unfold weaveTask emitRemap
  split
  · next hind =>
      by_cases huse : ((rtBuffer B.slots.taskOrder).2 && decide (pid < B.maxTasks)) = true
      · simp only [DeviceOp.accesses, hind, huse, if_true] at h
        simp only [huse, if_true, orderEntry_congr (h.mono (List.subset_append_left _ _)),
          orderSizeOk_congr (h.mono (List.subset_append_right _ _))]
      · simp only [huse, Bool.false_eq_true, if_false]
  · rfl

theorem dispatch_congr {useCLC : Bool} {nctaid ctaid : Dim3}
    (h : AgreeOn (DeviceOp.accesses B m (.dispatch useCLC nctaid ctaid)) m m') :
    dispatch useCLC B.toConfig B.slots m' nctaid ctaid
      = dispatch useCLC B.toConfig B.slots m nctaid ctaid := by
  by_cases huse : ((if useCLC then (rtBuffer B.slots.ctrl).2
      else (rtBuffer B.slots.queue).2 && (rtBuffer B.slots.ctrl).2)
        && decide (Grid1D B.toConfig nctaid)) = true
  · simp only [DeviceOp.accesses, huse, if_true] at h
    have hntasks : getNumTasks B.slots m' = getNumTasks B.slots m := h.load List.mem_cons_self
    simp only [dispatch, hntasks]
  · have hgrid : ((nctaidIntrinsic ((B.slotAxis + 1).tmod 3) nctaid == 1)
        && (nctaidIntrinsic ((B.slotAxis + 2).tmod 3) nctaid == 1))
        = decide (Grid1D B.toConfig nctaid) := by
      rw [Bool.eq_iff_iff, Bool.and_eq_true, beq_iff_eq, beq_iff_eq, decide_eq_true_iff]
      exact Iff.rfl
    simp only [dispatch, hgrid, huse, Bool.false_eq_true, if_false]

theorem emitOrderRemap_congr {raw : ℕ} (h : AgreeOn (DeviceOp.accesses B m (.orderRemap raw)) m m') :
    emitOrderRemap B.toConfig B.slots m' raw = emitOrderRemap B.toConfig B.slots m raw := by
  unfold emitOrderRemap
  split
  · rfl
  · next hind =>
      by_cases huse : ((rtBuffer B.slots.taskOrder).2 && decide (raw < B.maxTasks)) = true
      · simp only [DeviceOp.accesses, hind, huse, if_true, Bool.false_eq_true, if_false] at h
        have hentry : tableWord m' (rtBuffer B.slots.taskOrder).1 raw
            = tableWord m (rtBuffer B.slots.taskOrder).1 raw := h.load List.mem_cons_self
        have hntasks : getNumTasks B.slots m' = getNumTasks B.slots m :=
          h.load (List.mem_cons_of_mem _ List.mem_cons_self)
        have hsize : loadOrderSize m' (rtBuffer B.slots.ctrl).1
            = loadOrderSize m (rtBuffer B.slots.ctrl).1 :=
          h.load (List.mem_cons_of_mem _ (List.mem_cons_of_mem _ List.mem_cons_self))
        simp only [huse, if_true, hentry, hntasks, hsize]
      · simp only [huse, Bool.false_eq_true, if_false]

theorem emitPolicyFlags_congr {task : ℕ} (h : AgreeOn (DeviceOp.accesses B m (.policyFlags task)) m m') :
    emitPolicyFlags B.toWeaveConfig B.slots m' task = emitPolicyFlags B.toWeaveConfig B.slots m task := by
  unfold emitPolicyFlags
  by_cases huse : ((rtBuffer B.slots.ctrl).2 && decide (task < B.maxTasks)) = true
  · simp only [DeviceOp.accesses, huse, if_true] at h
    have hlam : m'.load32 ((rtBuffer B.slots.ctrl).1 + kCtrlLambdaOff)
        = m.load32 ((rtBuffer B.slots.ctrl).1 + kCtrlLambdaOff) := h.load List.mem_cons_self
    have hq : m'.load32 ((rtBuffer B.slots.ctrl).1 + rowOff task)
        = m.load32 ((rtBuffer B.slots.ctrl).1 + rowOff task) :=
      h.load (List.mem_cons_of_mem _ List.mem_cons_self)
    have hhint : m'.load ((rtBuffer B.slots.ctrl).1 + (rowOff task + kCtrlRowHintOff)) 1
        = m.load ((rtBuffer B.slots.ctrl).1 + (rowOff task + kCtrlRowHintOff)) 1 :=
      h.load (List.mem_cons_of_mem _ (List.mem_cons_of_mem _ List.mem_cons_self))
    simp only [huse, if_true, loadF32, hlam, hq, hhint]
  · simp only [huse, Bool.false_eq_true, if_false]

theorem emitBudget_congr {task : ℕ} (h : AgreeOn (DeviceOp.accesses B m (.budget task)) m m') :
    emitBudget B.toWeaveConfig B.slots m' task = emitBudget B.toWeaveConfig B.slots m task := by
  unfold emitBudget
  by_cases huse : ((rtBuffer B.slots.ctrl).2 && decide (task < B.maxTasks)) = true
  · simp only [DeviceOp.accesses, huse, if_true] at h
    have htau : loadTau m' (rtBuffer B.slots.ctrl).1 task = loadTau m (rtBuffer B.slots.ctrl).1 task :=
      h.load List.mem_cons_self
    simp only [huse, if_true, htau]
  · simp only [huse, Bool.false_eq_true, if_false]

/-- **An operation reads its accesses only.** -/
theorem DeviceOp.result_congr {op : DeviceOp} (h : AgreeOn (op.accesses B m) m m') :
    op.result B m' = op.result B m := by
  cases op with
  | weaveTask nTiles pid => exact congrArg DeviceResult.task (weaveTask_congr h)
  | policyFlags task => exact congrArg DeviceResult.flags (emitPolicyFlags_congr h)
  | budget task => exact congrArg DeviceResult.budget (emitBudget_congr h)
  | timerOff => exact congrArg DeviceResult.gate (readTimerOff_congr h)
  | timer off task cycles => rfl
  | dispatch useCLC nctaid ctaid => exact congrArg DeviceResult.target (dispatch_congr h)
  | orderRemap raw => exact congrArg DeviceResult.task (emitOrderRemap_congr h)
  | claimTicket =>
      have hcounter : m'.load32 (rtBuffer B.slots.queue).1 = m.load32 (rtBuffer B.slots.queue).1 :=
        h.load List.mem_cons_self
      simp only [result, emitClaimTicket, hcounter]

/-! ## Nothing else is changed -/

theorem agreesOff_atomicAdd64 (a v : ℕ) : AgreesOff [⟨a, 8⟩] m (atomicAdd64 m a v) := by
  refine .store ⟨⟨a, 8⟩, List.mem_cons_self, le_rfl, ?_⟩
  rw [ByteMem.length_toBytes]

theorem agreesOff_emitTimer (off : Bool) (task cycles : ℕ) :
    AgreesOff ((timerAccesses C R m off task).map Access.span) m
      (emitTimer C R m off task cycles) := by
  unfold emitTimer
  split
  · next havail =>
      by_cases huse : ((rtBuffer R.timer).2 && decide (task < C.maxTasks) && !off) = true
      · simp only [timerAccesses, havail, huse, if_true]
        split
        · split
          · exact (agreesOff_atomicAdd64 _ cycles).mono (by simp [Access.span])
          · exact .refl _ m
        · exact agreesOff_atomicAdd64 _ cycles
      · simp only [huse, Bool.false_eq_true, if_false]
        exact .refl _ m
  · exact .refl _ m

/-- **An operation changes its accesses only.** -/
theorem DeviceOp.agreesOff_exec (op : DeviceOp) :
    AgreesOff ((op.accesses B m).map Access.span) m (op.exec B m) := by
  cases op with
  | timer off task cycles => exact agreesOff_emitTimer off task cycles
  | claimTicket =>
      refine .store ⟨⟨(rtBuffer B.slots.queue).1, 4⟩, List.mem_cons_self, le_rfl, ?_⟩
      rw [ByteMem.length_toBytes]
  | _ => exact .refl _ m

/-- The table that an operation adds to. -/
def DeviceOp.table : DeviceOp → Option Table
  | timer .. => some .timer
  | claimTicket => some .queue
  | _ => none

theorem DeviceOp.table_accesses {op : DeviceOp} {t : Table} (ht : op.table = some t) :
    ∀ x ∈ op.accesses B m, x.table = t := by
  intro x hx
  cases op with
  | timer off task cycles =>
      cases ht
      simp only [accesses, timerAccesses, List.mem_ite_nil_right] at hx
      obtain ⟨-, -, hx⟩ := hx
      split at hx
      · simp only [List.mem_cons, List.mem_ite_nil_right, List.not_mem_nil, or_false] at hx
        rcases hx with rfl | ⟨-, rfl⟩ <;> rfl
      · rw [List.mem_singleton.1 hx]
  | claimTicket =>
      cases ht
      rw [List.mem_singleton.1 hx]
  | _ => cases ht

/-- The rows lie apart from the word that leads to them. -/
theorem load_emitTimer_of_apart (off : Bool) (task cycles : ℕ) (hind : C.timerIndirect = true)
    (hapart : m.load64 R.timer.base ≠ 0 → task < C.maxTasks →
      R.timer.base + 8 ≤ m.load64 R.timer.base + 8 * task ∨
        m.load64 R.timer.base + 8 * task + 8 ≤ R.timer.base) :
    (emitTimer C R m off task cycles).load64 R.timer.base = m.load64 R.timer.base := by
  unfold emitTimer
  split
  · by_cases huse : ((rtBuffer R.timer).2 && decide (task < C.maxTasks) && !off) = true
    · simp only [huse, if_true]
      split
      · next hne =>
          simp only [Bool.and_eq_true, decide_eq_true_eq] at huse
          exact load_atomicAdd64_of_disjoint _ cycles (hapart (bne_iff_ne.1 hne) huse.1.2)
      · rfl
    · simp only [huse, Bool.false_eq_true, if_false]
  · rfl

/-! ## Over a plane -/

/-- The channel words that the code follows lead to the plane's buffers; the timer's may be null. -/
structure ChannelsLead (B : BakedConfig) (p : SchedPlane) (m : ByteMem) : Prop where
  order : B.indirect = true → B.orderIndirect = true →
    ∃ d ∈ p.orderDev, m.load64 (p.base + orderOff) = d
  timer : B.timerIndirect = true → m.load64 (p.base + timerOff) = p.timerDev.getD 0

section

variable {p : SchedPlane} (hlaid : p.Laid) (hbase : 0 < p.base) (hslots : B.slots = p.slots)
  (hmax : B.maxTasks ≤ p.N)

include hlaid

/-- The control block ends within its window. -/
theorem covered_ctrl {off n : ℕ} (h : off + n ≤ 32 + 8 * p.N) :
    CoveredBy (p.spans .ctrl) (p.base + ctrlOff + off) n := by
  have hcap := hlaid.cap
  simp only [maxTasksLimit] at hcap
  refine SchedPlane.covered_offset ?_
  simp only [windowBytes]
  omega

theorem covered_rows {task off n : ℕ} (htask : task < p.N) (h : off + n ≤ 8) :
    CoveredBy (p.spans .ctrl) (p.base + ctrlOff + (rowOff task + off)) n := by
  refine covered_ctrl hlaid ?_
  simp only [rowOff, kCtrlRowSize, kCtrlRowsOff]
  omega

include hmax

theorem covered_orderEntry {m : ByteMem} (hind : B.indirect = true) (hlead : ChannelsLead B p m)
    {pid : ℕ} (hpid : pid < B.maxTasks) :
    ∀ x ∈ orderEntryAccesses B.toConfig m (p.base + orderOff) pid,
      CoveredBy (p.spans x.table) x.addr x.width := by
  have hcap := hlaid.cap
  simp only [maxTasksLimit] at hcap
  -- entry `k` of a table in the window
  have hwindow : CoveredBy (p.spans .order) (p.base + orderOff + 4 * pid) 4 := by
    refine SchedPlane.covered_offset ?_
    simp only [windowBytes]
    omega
  intro x hx
  cases horder : B.orderIndirect with
  | false =>
      simp only [orderEntryAccesses, horder, Bool.false_eq_true, if_false, List.mem_singleton] at hx
      subst hx
      exact hwindow
  | true =>
      obtain ⟨d, hd, hword⟩ := hlead.order hind horder
      simp only [orderEntryAccesses, horder, if_true, List.mem_cons, List.not_mem_nil, or_false,
        hword] at hx
      rcases hx with rfl | rfl
      · refine SchedPlane.covered_first ?_
        simp only [windowBytes]
        omega
      · by_cases hzero : d = 0
        · simp only [hzero, bne_self_eq_false, Bool.false_eq_true, if_false]
          exact hwindow
        · simp only [bne_iff_ne, ne_eq, hzero, not_false_eq_true, if_true]
          refine SchedPlane.covered_buffer (s := ⟨d, 4 * p.N⟩) ?_ ⟨Nat.le_add_right _ _, ?_⟩
          · rw [SchedPlane.buffer, Option.mem_def.1 hd]
            rfl
          · simp only
            omega

include hbase hslots

omit hmax in
theorem covered_ctrlAccesses {off : ℕ} (h : off + 4 ≤ 32) :
    ∀ x ∈ ctrlAccesses B.slots off, CoveredBy (p.spans x.table) x.addr x.width := by
  have hctrl : rtBuffer p.slots.ctrl = (p.base + ctrlOff, true) := rtBuffer_baked (by omega)
  intro x hx
  simp only [ctrlAccesses, hslots, hctrl, if_true, List.mem_ite_nil_right, List.mem_singleton] at hx
  obtain ⟨-, rfl⟩ := hx
  exact covered_ctrl (n := 4) hlaid (by omega)

theorem covered_timerAccesses {m : ByteMem} (hlead : ChannelsLead B p m) (off : Bool) (task : ℕ) :
    ∀ x ∈ timerAccesses B.toConfig B.slots m off task, CoveredBy (p.spans x.table) x.addr x.width := by
  have hcap := hlaid.cap
  simp only [maxTasksLimit] at hcap
  have htimer : rtBuffer p.slots.timer = (p.base + timerOff, true) := rtBuffer_baked (by omega)
  intro x hx
  simp only [timerAccesses, hslots, htimer, Bool.true_and, List.mem_ite_nil_right, Bool.and_eq_true,
    decide_eq_true_eq] at hx
  obtain ⟨-, ⟨htask, -⟩, hx⟩ := hx
  cases hind : B.timerIndirect with
  | false =>
      simp only [hind, Bool.false_eq_true, if_false, List.mem_singleton] at hx
      subst hx
      refine SchedPlane.covered_offset ?_
      simp only [windowBytes]
      omega
  | true =>
      have hword := hlead.timer hind
      simp only [hind, if_true, hword, List.mem_cons, List.mem_ite_nil_right, bne_iff_ne,
        List.not_mem_nil, or_false] at hx
      rcases hx with rfl | ⟨hne, rfl⟩
      · refine SchedPlane.covered_first ?_
        simp only [windowBytes]
        omega
      · rcases he : p.timerDev with _ | e
        · rw [he] at hne
          exact absurd rfl hne
        · refine SchedPlane.covered_buffer (s := ⟨e, 8 * p.N⟩) ?_ ⟨Nat.le_add_right _ _, ?_⟩
          · rw [SchedPlane.buffer, he]
            rfl
          · simp only [Option.getD_some]
            omega

/-- **Every access is to its own table.** -/
theorem DeviceOp.covered {m : ByteMem} (hlead : ChannelsLead B p m) (op : DeviceOp) :
    ∀ x ∈ op.accesses B m, CoveredBy (p.spans x.table) x.addr x.width := by
  have hcap := hlaid.cap
  simp only [maxTasksLimit] at hcap
  have horder : rtBuffer p.slots.taskOrder = (p.base + orderOff, true) := rtBuffer_baked (by omega)
  have hctrl : rtBuffer p.slots.ctrl = (p.base + ctrlOff, true) := rtBuffer_baked (by omega)
  have hqueue : rtBuffer p.slots.queue = (p.base + queueOff, true) := rtBuffer_baked (by omega)
  have hheader : ∀ off, off + 4 ≤ 32 → CoveredBy (p.spans .ctrl) (p.base + ctrlOff + off) 4 :=
    fun off hoff => covered_ctrl hlaid (by omega)
  cases op with
  | weaveTask nTiles pid =>
      intro x hx
      simp only [accesses, hslots, horder, Bool.true_and, List.mem_ite_nil_right, Bool.and_eq_true,
        decide_eq_true_eq, List.mem_append] at hx
      obtain ⟨⟨hind, -⟩, hpid, hx | hx⟩ := hx
      · exact covered_orderEntry hlaid hmax hind hlead hpid x hx
      · exact covered_ctrlAccesses hlaid hbase hslots (by decide) x (hslots ▸ hx)
  | policyFlags task =>
      intro x hx
      simp only [accesses, hslots, hctrl, Bool.true_and, List.mem_ite_nil_right, decide_eq_true_eq,
        List.mem_cons, List.not_mem_nil, or_false] at hx
      obtain ⟨htask, rfl | rfl | rfl⟩ := hx
      · exact hheader _ (by decide)
      · exact covered_ctrl (n := 4) hlaid (by simp only [rowOff, kCtrlRowSize, kCtrlRowsOff]; omega)
      · exact covered_rows (n := 1) hlaid (by omega) (by decide)
  | budget task =>
      intro x hx
      simp only [accesses, hslots, hctrl, Bool.true_and, List.mem_ite_nil_right, decide_eq_true_eq,
        List.mem_singleton] at hx
      obtain ⟨htask, rfl⟩ := hx
      exact covered_rows (n := 2) hlaid (by omega) (by decide)
  | timerOff => exact covered_ctrlAccesses hlaid hbase hslots (by decide)
  | timer off task cycles => exact covered_timerAccesses hlaid hbase hslots hmax hlead off task
  | dispatch useCLC nctaid ctaid =>
      intro x hx
      simp only [accesses, hslots, hctrl, List.mem_ite_nil_right, List.mem_singleton] at hx
      obtain ⟨-, rfl⟩ := hx
      exact hheader _ (by decide)
  | orderRemap raw =>
      intro x hx
      simp only [accesses, hslots, horder, hctrl, Bool.true_and, List.mem_ite_nil_left,
        List.mem_ite_nil_right, decide_eq_true_eq, List.mem_cons, List.not_mem_nil, or_false] at hx
      obtain ⟨-, hraw, rfl | rfl | rfl⟩ := hx
      · refine SchedPlane.covered_offset ?_
        simp only [windowBytes]
        omega
      · exact hheader _ (by decide)
      · exact hheader _ (by decide)
  | claimTicket =>
      intro x hx
      simp only [accesses, hslots, hqueue, List.mem_singleton] at hx
      subst hx
      refine SchedPlane.covered_first ?_
      simp only [windowBytes]
      omega

/-- **No operation changes another table.** -/
theorem DeviceOp.elsewhere {m : ByteMem} (hlead : ChannelsLead B p m) {op : DeviceOp} {t : Table}
    (ht : op.table ≠ some t) {x : Span} (hx : x ∈ p.spans t) {a : ℕ} (ha : x.Covers a 1) :
    op.exec B m a = m a := by
  have hcovered := DeviceOp.covered hlaid hbase hslots hmax hlead op
  cases hop : op.table with
  | none =>
      cases op with
      | timer off task cycles => cases hop
      | claimTicket => cases hop
      | _ => rfl
  | some t' =>
      have htable : ∀ x ∈ op.accesses B m, x.table = t' := table_accesses hop
      have hagrees : AgreesOff (p.spans t') m (op.exec B m) := by
        refine (op.agreesOff_exec (B := B) (m := m)).of_covered ?_
        rw [List.forall_mem_map]
        exact fun y hy => htable y hy ▸ hcovered y hy
      have hne : t' ≠ t := fun he => ht (hop.trans (congrArg some he))
      exact hagrees.apply (fun s hs => hlaid.spans_apart hne s hs x hx) ha

end

end SchedPass
