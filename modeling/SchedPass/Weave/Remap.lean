import SchedPass.Lib.PermutesBelow
import SchedPass.Util

set_option autoImplicit false

/-! # The plain weave's task remap (`Weaver::emitRemap`)

The woven prologue maps a block's own index to a task: the order table's entry when the table is
armed and covers the block, unless the entry lies outside the grid or the table's `order_size` stamp
is for another grid, in which case the block keeps its own index.

The code loads the entry, then the stamp, then decides; `orderEntry`, `orderSizeOk` and
`selectTask` are these three parts. A launch that reads the same memory throughout is `emitRemap`; the
instructions that `Weaver` emits compute it (`Weaver.emitRemap_computes`). -/

namespace SchedPass

/-! ## The emitted code -/

/-- The table entry the code loads for block `pid`, with the channel indirection: with
    `SCHED_ORDER_INDIRECT` the slot's first word is the table's address, and a zero word selects the
    out-of-range value `maxTasks`. -/
def orderEntry (C : Config) (m : ByteMem) (G pid : ℕ) : ℕ :=
  if C.orderIndirect then
    let ptr := m.load64 G
    let chanOk := ptr != 0
    let base := if chanOk then ptr else G
    let mapped := tableWord m base pid
    if chanOk then mapped else C.maxTasks
  else
    tableWord m G pid

/-- Whole-launch validity: the stamp is 0 (unchecked) or equals the grid size. Without an armed
    control block nothing is checked. -/
def orderSizeOk (R : RtSlots) (m : ByteMem) (nTiles : ℕ) : Bool :=
  if rtAvailable R.ctrl then
    let (ctrl, cArmed) := rtBuffer R.ctrl
    if cArmed then
      let osz := loadOrderSize m ctrl
      osz == 0 || osz == nTiles
    else
      true
  else
    true

/-- The final select: the entry if it is inside the grid and the stamp is valid, else the block's
    own index. -/
def selectTask (mapped nTiles pid : ℕ) (sizeOk : Bool) : ℕ :=
  if mapped < nTiles && sizeOk then mapped else pid

/-- The task of block `pid` in a grid of `nTiles` blocks on the slot axis. -/
def emitRemap (C : Config) (R : RtSlots) (m : ByteMem) (nTiles pid : ℕ) : ℕ :=
  let (G, armed) := rtBuffer R.taskOrder
  if armed && decide (pid < C.maxTasks) then
    selectTask (orderEntry C m G pid) nTiles pid (orderSizeOk R m nTiles)
  else
    pid

/-- The task of block `pid` as `Weaver::run` chooses it: remapped when the remap is built in and there is
    an order slot. -/
def weaveTask (C : Config) (R : RtSlots) (m : ByteMem) (nTiles pid : ℕ) : ℕ :=
  if C.indirect && rtAvailable R.taskOrder then emitRemap C R m nTiles pid else pid

/-! ## The table a launch sees -/

/-- The order table as the woven kernel addresses it: the slot itself, or behind the slot's channel
    pointer. -/
def orderTable (C : Config) (R : RtSlots) (m : ByteMem) (k : ℕ) : ℕ :=
  tableWord m (if C.orderIndirect then m.load64 R.taskOrder.base else R.taskOrder.base) k

/-- The order channel leads to a table: the layout is direct, or the channel pointer is set. -/
def ChannelSet (C : Config) (R : RtSlots) (m : ByteMem) : Prop :=
  C.orderIndirect = true → m.load64 R.taskOrder.base ≠ 0

instance (C : Config) (R : RtSlots) (m : ByteMem) : Decidable (ChannelSet C R m) :=
  inferInstanceAs (Decidable (_ → _))

/-- A table agrees with its stamp `s` as far as a grid of `g` blocks can see: the first `s` entries
    permute `[0, s)`, or, unchecked (`s = 0`), the entries that the grid reads permute their range. -/
def TableMatches (table : ℕ → ℕ) (maxTasks s g : ℕ) : Prop :=
  (0 < s ∧ s ≤ maxTasks ∧ PermutesBelow table s) ∨
    (s = 0 ∧ PermutesBelow table (min g maxTasks))

instance (table : ℕ → ℕ) (maxTasks s g : ℕ) : Decidable (TableMatches table maxTasks s g) :=
  inferInstanceAs (Decidable (_ ∨ _))

variable {C : Config} {R : RtSlots} {m : ByteMem}

theorem orderEntry_of_channelSet (h : ChannelSet C R m) (k : ℕ) :
    orderEntry C m R.taskOrder.base k = orderTable C R m k := by
  unfold orderEntry orderTable
  by_cases hc : C.orderIndirect = true
  · simp [hc, h hc]
  · simp [hc]

theorem orderSizeOk_of_armed (h : R.ctrl.Armed) (g : ℕ) :
    orderSizeOk R m g =
      (loadOrderSize m R.ctrl.base == 0 || loadOrderSize m R.ctrl.base == g) := by
  simp [orderSizeOk, h.available, h.buffer]

theorem orderSizeOk_iff (h : R.ctrl.Armed) (g : ℕ) :
    orderSizeOk R m g = true ↔
      loadOrderSize m R.ctrl.base = 0 ∨ loadOrderSize m R.ctrl.base = g := by
  rw [orderSizeOk_of_armed h, Bool.or_eq_true, beq_iff_eq, beq_iff_eq]

theorem selectTask_lt {mapped g pid : ℕ} {ok : Bool} (h : pid < g) : selectTask mapped g pid ok < g := by
  unfold selectTask
  split
  · next hc => exact of_decide_eq_true (Bool.and_eq_true _ _ ▸ hc).1
  · exact h

/-- **The remap as one conditional**, for armed slots and a set channel. -/
theorem emitRemap_eq (horder : R.taskOrder.Armed) (hctrl : R.ctrl.Armed) (hchan : ChannelSet C R m)
    (g pid : ℕ) :
    emitRemap C R m g pid =
      if pid < C.maxTasks ∧ orderTable C R m pid < g ∧
          (loadOrderSize m R.ctrl.base = 0 ∨ loadOrderSize m R.ctrl.base = g)
        then orderTable C R m pid else pid := by
  simp only [emitRemap, horder.buffer, orderEntry_of_channelSet hchan, selectTask,
    orderSizeOk_of_armed hctrl, Bool.true_and, Bool.and_eq_true, Bool.or_eq_true, beq_iff_eq,
    decide_eq_true_eq]
  by_cases hpid : pid < C.maxTasks
  · simp [hpid]
  · simp [hpid]

/-! ## Range and bijectivity -/

theorem emitRemap_lt {g pid : ℕ} (h : pid < g) : emitRemap C R m g pid < g := by
  simp only [emitRemap]
  split
  · exact selectTask_lt h
  · exact h

theorem emitRemap_eq_self_of_stamp (horder : R.taskOrder.Armed) (hctrl : R.ctrl.Armed)
    (hchan : ChannelSet C R m) {g : ℕ} (h0 : loadOrderSize m R.ctrl.base ≠ 0)
    (hg : loadOrderSize m R.ctrl.base ≠ g) (pid : ℕ) : emitRemap C R m g pid = pid := by
  rw [emitRemap_eq horder hctrl hchan, if_neg]
  rintro ⟨_, _, h | h⟩
  · exact h0 h
  · exact hg h

/-- With a valid stamp and a table that permutes the part `[0, c)` the grid reads, the map is that
    permutation, continued by the identity. -/
theorem emitRemap_permutesBelow_of_ok (horder : R.taskOrder.Armed) (hctrl : R.ctrl.Armed)
    (hchan : ChannelSet C R m) {g : ℕ}
    (hok : loadOrderSize m R.ctrl.base = 0 ∨ loadOrderSize m R.ctrl.base = g)
    (hperm : PermutesBelow (orderTable C R m) (min g C.maxTasks)) :
    PermutesBelow (emitRemap C R m g) g := by
  have htable : ∀ i < min g C.maxTasks, orderTable C R m i = emitRemap C R m g i := by
    intro i hi
    have hlt : orderTable C R m i < g := (hperm.lt hi).trans_le (min_le_left _ _)
    rw [emitRemap_eq horder hctrl hchan, if_pos ⟨hi.trans_le (min_le_right _ _), hlt, hok⟩]
  refine (hperm.congr htable).extend (min_le_left _ _) fun i hle hlt => ?_
  rw [emitRemap_eq horder hctrl hchan, if_neg]
  rintro ⟨hmax, _, _⟩
  omega

/-- A table that matches its stamp makes the block-to-task map a bijection of every grid. -/
theorem emitRemap_permutesBelow (horder : R.taskOrder.Armed) (hctrl : R.ctrl.Armed)
    (hchan : ChannelSet C R m) {g : ℕ}
    (hmatch : TableMatches (orderTable C R m) C.maxTasks (loadOrderSize m R.ctrl.base) g) :
    PermutesBelow (emitRemap C R m g) g := by
  rcases hmatch with ⟨hpos, hmax, hperm⟩ | ⟨hzero, hperm⟩
  · by_cases hg : loadOrderSize m R.ctrl.base = g
    · refine emitRemap_permutesBelow_of_ok horder hctrl hchan (Or.inr hg) ?_
      rw [hg] at hmax hperm
      rwa [min_eq_left hmax]
    · exact PermutesBelow.of_eq_self fun i _ =>
        emitRemap_eq_self_of_stamp horder hctrl hchan hpos.ne' hg i
  · exact emitRemap_permutesBelow_of_ok horder hctrl hchan (Or.inl hzero) hperm

/-- **The woven remap is range-safe on any table and bijective on a consistent one**: every block of
    a grid of `g` gets a task of the grid, and a table that matches its stamp gives every task to
    exactly one block, whatever the grid size. -/
theorem emitRemap_safe_and_bijective (C : Config) (R : RtSlots) (m : ByteMem)
    (horder : R.taskOrder.Armed) (hctrl : R.ctrl.Armed) (hchan : ChannelSet C R m) (g : ℕ) :
    (∀ p < g, emitRemap C R m g p < g) ∧
      (TableMatches (orderTable C R m) C.maxTasks (loadOrderSize m R.ctrl.base) g →
        PermutesBelow (emitRemap C R m g) g) :=
  ⟨fun _ hp => emitRemap_lt hp, emitRemap_permutesBelow horder hctrl hchan⟩

/-! ## A null channel -/

/-- Behind a null channel pointer every block of the table reads the sentinel. -/
theorem orderEntry_of_null (hind : C.orderIndirect = true) {G : ℕ} (hzero : m.load64 G = 0) (p : ℕ) :
    orderEntry C m G p = C.maxTasks := by
  simp [orderEntry, hind, hzero]

/-- **A null order channel is the identity exactly where the sentinel is rejected**: beyond the table, in
    a grid that `maxTasks` is outside of, or under a stamp for another grid. -/
theorem emitRemap_null_channel_iff (C : Config) (R : RtSlots) (m : ByteMem)
    (hind : C.orderIndirect = true) (hzero : m.load64 R.taskOrder.base = 0) (g p : ℕ) :
    emitRemap C R m g p = p ↔
      ¬R.taskOrder.Armed ∨ C.maxTasks ≤ p ∨ g ≤ C.maxTasks ∨ orderSizeOk R m g = false := by
  by_cases horder : R.taskOrder.Armed
  · by_cases hp : p < C.maxTasks
    · simp only [emitRemap, horder.buffer, orderEntry_of_null hind hzero, selectTask, Bool.true_and,
        decide_eq_true hp, if_true, Bool.and_eq_true, decide_eq_true_eq, horder, not_true_eq_false,
        false_or, not_le.2 hp]
      by_cases hg : C.maxTasks < g
      · cases hok : orderSizeOk R m g with
        | true => simp [hg, hp.ne']
        | false => simp
      · simp [hg, not_lt.1 hg]
    · simp [emitRemap, hp, not_lt.1 hp]
  · have hfalse : (rtBuffer R.taskOrder).2 = false := by simpa [RtSlot.Armed] using horder
    simp [emitRemap, hfalse, horder]

/-! ## A concrete plane -/

/-- The control words a kernel reads, over zeroed memory: an order table at `order`, and at `ctrl` a
    control block with the given `num_tasks` and `order_size`. -/
def planeImage (order ctrl : ℕ) (table : List ℕ) (numTasks orderSize : ℕ) : ByteMem :=
  (ByteMem.zeroed.storeWords ctrl [0, numTasks, 0, 0, 0, 0, 0, orderSize]).storeWords order table

/-- Baked slots with the order table at 64, the control block at 1024 and the queue at 2048. -/
def bakedSlots : RtSlots :=
  { taskOrder := { bakedAddr := 64 }, ctrl := { bakedAddr := 1024 }, queue := { bakedAddr := 2048 } }

theorem emitRemap_safe_and_bijective_rotation :
    PermutesBelow (emitRemap {} bakedSlots (planeImage 64 1024 [1, 2, 0] 3 3) 3) 3 ∧
      PermutesBelow (emitRemap {} bakedSlots (planeImage 64 1024 [1, 2, 0] 3 3) 2) 2 :=
  ⟨(emitRemap_safe_and_bijective {} bakedSlots _ (by decide) (by decide) (by decide) 3).2
      (by decide),
    (emitRemap_safe_and_bijective {} bakedSlots _ (by decide) (by decide) (by decide) 2).2
      (by decide)⟩

/-- With a plane of zeros a grid that the table covers keeps its blocks. -/
theorem emitRemap_null_channel_covered :
    emitRemap { orderIndirect := true } bakedSlots ByteMem.zeroed 4096 0 = 0 :=
  (emitRemap_null_channel_iff _ _ _ rfl (by decide) 4096 0).2 (by decide)

/-- One block more, and all blocks of the table run task 4096. -/
theorem emitRemap_null_channel_sentinel :
    ({ orderIndirect := true } : Config).orderIndirect = true ∧
      ByteMem.zeroed.load64 bakedSlots.taskOrder.base = 0 ∧
      emitRemap { orderIndirect := true } bakedSlots ByteMem.zeroed 4097 0 = 4096 ∧
      emitRemap { orderIndirect := true } bakedSlots ByteMem.zeroed 4097 1 = 4096 := by
  decide

end SchedPass
