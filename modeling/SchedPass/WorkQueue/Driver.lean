import SchedPass.Weave.Remap

set_option autoImplicit false

/-! # The work-queue driver's straight-line code (`WorkQueueTransform`)

`buildDriver` replaces a kernel by a driver that decides, per CTA, between the stock path (one task
per block, as launched), an early exit, and the persistent claim loop. This file gives the code
between the loop's memory effects: the dispatch of the entry blocks, the driver's own order remap
`emitOrderRemap`, the two claim decodes and the loop's termination test. The loop itself, with its
barriers and its shared slot, is a state machine (`WorkQueue/Machine.lean`).

The driver's remap and the plain weave's `emitRemap` are separate code over the same tables. The
last two sections compare them: on the stock path, where `num_tasks` is 0, and on the claim path,
where `num_tasks` is the grid size. -/

namespace SchedPass

/-! ## The emitted code -/

/-- `ctrl->num_tasks`, loaded from the control slot. -/
def getNumTasks (R : RtSlots) (m : ByteMem) : ℕ := loadNumTasks m (rtBuffer R.ctrl).1

/-- The driver's task for raw id `raw`. Entry and stamp are both checked against `num_tasks`; the
    entry is always read from the order slot itself. -/
def emitOrderRemap (C : Config) (R : RtSlots) (m : ByteMem) (raw : ℕ) : ℕ :=
  if !rtAvailable R.taskOrder || !C.indirect then
    raw
  else
    let (order, armed) := rtBuffer R.taskOrder
    if armed && decide (raw < C.maxTasks) then
      -- the word at the slot itself, also where an indirect build keeps a pointer there
      let mapped := tableWord m order raw
      let nt := getNumTasks R m
      let osz := loadOrderSize m (rtBuffer R.ctrl).1
      let szOk := osz == 0 || osz == nt
      if mapped < nt && szOk then mapped else raw
    else
      raw

/-- Where the driver's entry blocks send a CTA. -/
inductive Dispatch
  /-- Run the body once, for the task of the CTA's own index. -/
  | stock (first : ℕ)
  /-- Return without running the body. -/
  | exit
  /-- Enter the claim loop with the CTA's own index as first raw id. -/
  | loop (first : ℕ)
  deriving DecidableEq, Repr

/-- The `entry`, `dyn` and `bound` blocks of `buildDriver` for a CTA at `ctaid` in a grid of shape
    `nctaid`. `useCLC` is the build's claim realization (`SCHED_CLC` on sm_100+). -/
def dispatch (useCLC : Bool) (C : Config) (R : RtSlots) (m : ByteMem) (nctaid ctaid : Dim3) :
    Dispatch :=
  let first := ctaidIntrinsic C.slotAxis ctaid
  let armed := if useCLC then (rtBuffer R.ctrl).2 else (rtBuffer R.queue).2 && (rtBuffer R.ctrl).2
  let n1 := nctaidIntrinsic ((C.slotAxis + 1).tmod 3) nctaid
  let n2 := nctaidIntrinsic ((C.slotAxis + 2).tmod 3) nctaid
  let grid1d := n1 == 1 && n2 == 1
  if armed && grid1d then
    let ntasks := getNumTasks R m
    -- zero tasks disarm the claim loop, not the launch
    if ntasks = 0 then .stock first else if first ≥ ntasks then .exit else .loop first
  else
    .stock first

/-- The CLC claim's value: component `x` of the cancelled block's `ctaid`
    (`query_cancel.get_first_ctaid` into `{%cx, _, _, _}`), or the fallback when nothing was
    cancelled. -/
def clcClaim (fallback : ℕ) : Option Dim3 → ℕ
  | some victim => victim.x
  | none => fallback

/-- The ticket claim's value and the counter word after it (`atomicrmw add 1` on a `u32`). -/
def ticketClaim (counter : ℕ) : ℕ × ℕ := (counter % 2 ^ 32, (counter + 1) % 2 ^ 32)

/-- The loop's termination test on the next raw id. -/
def loopDone (ntasks next : ℕ) : Bool := next ≥ ntasks

/-! ## The remap as one conditional -/

/-- A table entry that must lie below `n`; one that does not counts as the index `i`. -/
def clampBelow (n i v : ℕ) : ℕ := if v < n then v else i

theorem clampBelow_eq_iff {n i v w : ℕ} :
    clampBelow n i v = clampBelow n i w ↔
      v = w ∨ (n ≤ v ∧ n ≤ w) ∨ (n ≤ v ∧ w = i) ∨ (n ≤ w ∧ v = i) := by
  unfold clampBelow
  split <;> split <;> omega

variable {C : Config} {R : RtSlots} {m : ByteMem}

theorem emitOrderRemap_eq (hind : C.indirect = true) (horder : R.taskOrder.Armed) {n : ℕ}
    (hn : loadNumTasks m R.ctrl.base = n)
    (hsz : loadOrderSize m R.ctrl.base = 0 ∨ loadOrderSize m R.ctrl.base = n) (raw : ℕ) :
    emitOrderRemap C R m raw =
      if raw < C.maxTasks then clampBelow n raw (tableWord m R.taskOrder.base raw) else raw := by
  have hszb : (loadOrderSize m (rtBuffer R.ctrl).1 == 0
      || loadOrderSize m (rtBuffer R.ctrl).1 == n) = true := by
    rw [Bool.or_eq_true, beq_iff_eq, beq_iff_eq]
    exact hsz
  have hnt : getNumTasks R m = n := hn
  simp only [emitOrderRemap, horder.available, horder.buffer, hind, hnt, hszb, clampBelow,
    Bool.not_true, Bool.or_false, Bool.false_eq_true, if_false, Bool.true_and, Bool.and_true,
    decide_eq_true_eq]

theorem emitRemap_eq_clampBelow (horder : R.taskOrder.Armed) (hctrl : R.ctrl.Armed) {n : ℕ}
    (hsz : loadOrderSize m R.ctrl.base = 0 ∨ loadOrderSize m R.ctrl.base = n) (raw : ℕ) :
    emitRemap C R m n raw =
      if raw < C.maxTasks then clampBelow n raw (orderEntry C m R.taskOrder.base raw) else raw := by
  simp only [emitRemap, horder.buffer, selectTask, (orderSizeOk_iff hctrl n).2 hsz, clampBelow,
    Bool.true_and, Bool.and_true, decide_eq_true_eq]

/-! ## The dispatch -/

/-- Both axes other than the slot axis have extent 1. -/
def Grid1D (C : Config) (nctaid : Dim3) : Prop :=
  nctaidIntrinsic ((C.slotAxis + 1).tmod 3) nctaid = 1 ∧
    nctaidIntrinsic ((C.slotAxis + 2).tmod 3) nctaid = 1

instance (C : Config) (nctaid : Dim3) : Decidable (Grid1D C nctaid) :=
  inferInstanceAs (Decidable (_ ∧ _))

/-- The slots the claim loop needs: the control block, and the ticket counter unless CLC claims. -/
def ClaimArmed (useCLC : Bool) (R : RtSlots) : Prop :=
  R.ctrl.Armed ∧ (useCLC = false → R.queue.Armed)

instance (useCLC : Bool) (R : RtSlots) : Decidable (ClaimArmed useCLC R) :=
  inferInstanceAs (Decidable (_ ∧ (_ → _)))

/-- With `num_tasks` = 0 every CTA takes the stock path. -/
theorem dispatch_of_disarmed (useCLC : Bool) (nctaid ctaid : Dim3)
    (h0 : loadNumTasks m R.ctrl.base = 0) :
    dispatch useCLC C R m nctaid ctaid = .stock (ctaidIntrinsic C.slotAxis ctaid) := by
  have hnt : getNumTasks R m = 0 := h0
  simp only [dispatch, hnt, if_true, ite_self]

theorem dispatch_of_armed {useCLC : Bool} (harmed : ClaimArmed useCLC R) {nctaid : Dim3}
    (hgrid : Grid1D C nctaid) {n : ℕ} (hn : loadNumTasks m R.ctrl.base = n) (hpos : 0 < n)
    (ctaid : Dim3) :
    dispatch useCLC C R m nctaid ctaid =
      if ctaidIntrinsic C.slotAxis ctaid < n then .loop (ctaidIntrinsic C.slotAxis ctaid)
      else .exit := by
  have hnt : getNumTasks R m = n := hn
  have harm : (if useCLC then (rtBuffer R.ctrl).2
      else (rtBuffer R.queue).2 && (rtBuffer R.ctrl).2) = true := by
    cases useCLC with
    | true => exact harmed.1
    | false =>
        have hq := harmed.2 rfl
        simp [hq.buffer, harmed.1.buffer]
  simp only [dispatch, harm, hgrid.1, hgrid.2, hnt, beq_self_eq_true, Bool.and_self, if_true,
    if_neg hpos.ne', ge_iff_le, ← not_lt, ite_not]

/-! ## Disarmed claim: the stock path's order -/

/-- The task a stock-path CTA runs the body for. -/
def stockTask (C : Config) (R : RtSlots) (m : ByteMem) (first : ℕ) : ℕ := emitOrderRemap C R m first

/-- With `num_tasks` = 0 the range check of the shared remap admits no entry. -/
theorem stockTask_of_disarmed (h0 : loadNumTasks m R.ctrl.base = 0) (first : ℕ) :
    stockTask C R m first = first := by
  have hnt : getNumTasks R m = 0 := h0
  simp only [stockTask, emitOrderRemap, hnt, Nat.not_lt_zero, decide_false, Bool.false_and,
    Bool.false_eq_true, if_false, ite_self]

/-- **Disarming the claim loop keeps the order exactly when the order is the identity.** With
    `num_tasks` = 0 every CTA of a grid of `n` blocks takes the stock path, and the stock path runs
    block `p` with task `order[p]` for all `p`, or agrees with the plain weave, only if the table is
    the identity on `[0, n)`. -/
theorem stockTask_eq_order_iff (useCLC : Bool) (C : Config) (R : RtSlots) (m : ByteMem)
    (nctaid : Dim3) (n : ℕ) (hn : nctaidIntrinsic C.slotAxis nctaid = n)
    (horder : R.taskOrder.Armed) (hctrl : R.ctrl.Armed) (hchan : ChannelSet C R m)
    (hmax : n ≤ C.maxTasks) (h0 : loadNumTasks m R.ctrl.base = 0)
    (hsz : loadOrderSize m R.ctrl.base = 0 ∨ loadOrderSize m R.ctrl.base = n)
    (hperm : PermutesBelow (orderTable C R m) n) :
    (∀ ctaid, dispatch useCLC C R m nctaid ctaid = .stock (ctaidIntrinsic C.slotAxis ctaid)) ∧
      ((∀ p < n, stockTask C R m p = orderTable C R m p) ↔ ∀ p < n, orderTable C R m p = p) ∧
      ((∀ p < n, stockTask C R m p = emitRemap C R m (nctaidIntrinsic C.slotAxis nctaid) p) ↔
        ∀ p < n, orderTable C R m p = p) := by
  have hplain : ∀ p < n, emitRemap C R m (nctaidIntrinsic C.slotAxis nctaid) p
      = orderTable C R m p := by
    intro p hp
    rw [hn, emitRemap_eq horder hctrl hchan, if_pos ⟨hp.trans_le hmax, hperm.lt hp, hsz⟩]
  refine ⟨fun ctaid => dispatch_of_disarmed useCLC nctaid ctaid h0, ?_, ?_⟩
  · simp only [stockTask_of_disarmed h0, eq_comm]
  · constructor
    · intro h p hp
      rw [← hplain p hp, ← h p hp, stockTask_of_disarmed h0]
    · intro h p hp
      rw [hplain p hp, h p hp, stockTask_of_disarmed h0]

theorem stockTask_eq_order_iff_identity :
    stockTask {} bakedSlots (planeImage 64 1024 [0, 1] 0 2) 1
      = orderTable {} bakedSlots (planeImage 64 1024 [0, 1] 0 2) 1 :=
  (stockTask_eq_order_iff true {} bakedSlots (planeImage 64 1024 [0, 1] 0 2) ⟨2, 1, 1⟩ 2 (by decide)
    (by decide) (by decide) (by decide) (by decide) (by decide) (by decide) (by decide)).2.1.2
    (by decide) 1 (by decide)

/-- A reversed table of two tiles, stamped for the grid, with the claim loop disarmed: block 0 runs
    task 0, where the table and the plain weave say 1. -/
theorem stockTask_ignores_reversed_order :
    bakedSlots.taskOrder.Armed ∧ bakedSlots.ctrl.Armed ∧
      loadNumTasks (planeImage 64 1024 [1, 0] 0 2) bakedSlots.ctrl.base = 0 ∧
      loadOrderSize (planeImage 64 1024 [1, 0] 0 2) bakedSlots.ctrl.base = 2 ∧
      PermutesBelow (orderTable {} bakedSlots (planeImage 64 1024 [1, 0] 0 2)) 2 ∧
      dispatch true {} bakedSlots (planeImage 64 1024 [1, 0] 0 2) ⟨2, 1, 1⟩ ⟨0, 0, 0⟩ = .stock 0 ∧
      stockTask {} bakedSlots (planeImage 64 1024 [1, 0] 0 2) 0 = 0 ∧
      orderTable {} bakedSlots (planeImage 64 1024 [1, 0] 0 2) 0 = 1 ∧
      emitRemap {} bakedSlots (planeImage 64 1024 [1, 0] 0 2) 2 0 = 1 := by
  decide

/-! ## Armed claim: the two remaps -/

/-- The word the plain weave takes as block `k`'s entry: in the direct layout the order slot's own
    word, with a channel the device table's word, and `maxTasks` when the channel word is zero. -/
def weaveWord (C : Config) (R : RtSlots) (m : ByteMem) (k : ℕ) : ℕ :=
  if C.orderIndirect = false then tableWord m R.taskOrder.base k
  else if m.load64 R.taskOrder.base = 0 then C.maxTasks
  else tableWord m (m.load64 R.taskOrder.base) k

theorem orderEntry_eq_weaveWord (k : ℕ) :
    orderEntry C m R.taskOrder.base k = weaveWord C R m k := by
  unfold orderEntry weaveWord
  cases C.orderIndirect with
  | false => simp
  | true => by_cases hp : m.load64 R.taskOrder.base = 0 <;> simp [hp]

/-- Two entries that the range check `< n` treats alike for index `i`. -/
def SameEntry (n i v w : ℕ) : Prop :=
  v = w ∨ (n ≤ v ∧ n ≤ w) ∨ (n ≤ v ∧ w = i) ∨ (n ≤ w ∧ v = i)

instance (n i v w : ℕ) : Decidable (SameEntry n i v w) := inferInstanceAs (Decidable (_ ∨ _))

/-- **The driver and the plain weave agree exactly on direct tables**, or where the slot's own words
    happen to stand for the same tasks as the device table's: with `num_tasks` equal to the grid size
    both realisations return the same task for every raw id if and only if the layout is direct or
    each word at the order slot is, up to the range check, the word the plain weave uses. -/
theorem emitOrderRemap_eq_emitRemap_iff (C : Config) (R : RtSlots) (m : ByteMem) (n : ℕ)
    (hind : C.indirect = true) (horder : R.taskOrder.Armed) (hctrl : R.ctrl.Armed)
    (hn : loadNumTasks m R.ctrl.base = n)
    (hsz : loadOrderSize m R.ctrl.base = 0 ∨ loadOrderSize m R.ctrl.base = n) :
    (∀ raw, emitOrderRemap C R m raw = emitRemap C R m n raw) ↔
      C.orderIndirect = false ∨
        ∀ k < C.maxTasks, SameEntry n k (tableWord m R.taskOrder.base k) (weaveWord C R m k) := by
  have hpoint : ∀ raw, emitOrderRemap C R m raw = emitRemap C R m n raw ↔
      (raw < C.maxTasks →
        SameEntry n raw (tableWord m R.taskOrder.base raw) (weaveWord C R m raw)) := by
    intro raw
    rw [emitOrderRemap_eq hind horder hn hsz, emitRemap_eq_clampBelow horder hctrl hsz,
      orderEntry_eq_weaveWord]
    by_cases hraw : raw < C.maxTasks
    · rw [if_pos hraw, if_pos hraw, clampBelow_eq_iff]
      exact ⟨fun h _ => h, fun h => h hraw⟩
    · rw [if_neg hraw, if_neg hraw]
      exact ⟨fun _ h => absurd h hraw, fun _ => rfl⟩
  constructor
  · intro h
    exact Or.inr fun k hk => (hpoint k).1 (h k) hk
  · rintro (hdirect | hsame) raw
    · refine (hpoint raw).2 fun _ => Or.inl ?_
      rw [weaveWord, if_pos hdirect]
    · exact (hpoint raw).2 (hsame raw)

/-- An indirect plane: the order slot at 64 holds a pointer to a device table at 4096. -/
def indirectImage : ByteMem := (planeImage 64 1024 [4096, 0] 2 2).storeWords 4096 [1, 0]

theorem emitOrderRemap_eq_emitRemap_iff_direct :
    emitOrderRemap {} bakedSlots (planeImage 64 1024 [1, 0] 2 2)
      = emitRemap {} bakedSlots (planeImage 64 1024 [1, 0] 2 2) 2 :=
  funext ((emitOrderRemap_eq_emitRemap_iff {} bakedSlots _ 2 (by decide) (by decide) (by decide)
    (by decide) (by decide)).2 (Or.inl (by decide)))

/-- With a device table `[1, 0]` behind the pointer 4096, the driver reads the pointer's low half as
    block 0's entry, rejects it, and runs task 0; the plain weave runs task 1. -/
theorem emitOrderRemap_reads_pointer_half :
    bakedSlots.taskOrder.Armed ∧ bakedSlots.ctrl.Armed ∧
      loadNumTasks indirectImage bakedSlots.ctrl.base = 2 ∧
      loadOrderSize indirectImage bakedSlots.ctrl.base = 2 ∧
      PermutesBelow (orderTable { orderIndirect := true } bakedSlots indirectImage) 2 ∧
      emitOrderRemap { orderIndirect := true } bakedSlots indirectImage 0 = 0 ∧
      emitRemap { orderIndirect := true } bakedSlots indirectImage 2 0 = 1 := by
  decide

end SchedPass
