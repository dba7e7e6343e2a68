import Mathlib.Logic.Equiv.Basic
import SchedPass.Weave.Remap
import SchedPass.Weave.ReplaceReads

set_option autoImplicit false

/-! # Task indirection (`SchedWeavePass::run`, `Weaver::run`)

The pass weaves kernels and task bodies and no other function. In a kernel it computes the block's task
at the entry and lets it have the uses of every read of the slot axis; the device functions that the
kernel calls keep reading the block's own index. So a woven block makes the accesses of the block of
its task if and only if nothing outside the kernel's own reads can tell the two blocks apart
(`indirection_iff`), for instance when no device function reads the slot axis
(`unaware_of_seesSame`). -/

namespace SchedPass

/-! ## The pass -/

/-- A function of a module, with the attributes the passes read. -/
structure Fn where
  code : Code
  /-- `isKernel`. -/
  kernel : Bool
  /-- `sched-task-body`: the task is the last argument. -/
  taskBody : Bool := false
  /-- `sched-wq-driver`. -/
  wqDriver : Bool := false
  /-- `sched-instrumented`. -/
  instrumented : Bool := false
  /-- The entry computes the block's task, the value behind the last argument. -/
  remapped : Bool := false
  instrumented_of_remapped : remapped = true → instrumented = true := by simp

/-- The functions that a module defines. -/
abbrev Module := String → Option Fn

/-- The functions that device code can call: a kernel is entered by a launch only. -/
def Module.device (M : Module) (g : String) : Option Code :=
  ((M g).filter fun F => !F.kernel).map Fn.code

/-- What `SchedWeavePass::run` does not pass over. -/
def Fn.woven (F : Fn) : Bool := (F.taskBody || F.kernel) && !(F.wqDriver || F.instrumented)

/-- A function is woven once. -/
theorem Fn.not_remapped_of_woven (F : Fn) (hwoven : F.woven = true) : F.remapped = false := by
  simp only [Fn.woven, Bool.and_eq_true, Bool.not_eq_true', Bool.or_eq_false_iff] at hwoven
  cases hremapped : F.remapped with
  | false => rfl
  | true => exact (F.instrumented_of_remapped hremapped).symm.trans hwoven.2.2

/-- `Weaver::run`, as far as the block index goes. -/
def Fn.weave (C : Config) (R : RtSlots) (F : Fn) : Fn :=
  if !F.taskBody && (C.indirect && rtAvailable R.taskOrder) then
    { F with
      code := F.code.replaceReads (axisOf C.slotAxis)
      remapped := true
      instrumented := true
      instrumented_of_remapped := fun _ => rfl }
  else
    { F with instrumented := true, instrumented_of_remapped := fun _ => rfl }

def schedWeavePass (C : Config) (R : RtSlots) (M : Module) : Module := fun g =>
  (M g).map fun F => if F.woven then F.weave C R else F

/-! ## Launches -/

/-- The block is one of the grid's. -/
def Dim3.Below (b grid : Dim3) : Prop := ∀ a, b.get a < grid.get a

section

variable {V E τ : Type}

/-- The frame that a launch enters the kernel with; `task` is what the remap gives. -/
def Fn.enter (F : Fn) (J : Meaning V E) (task : ℕ) (ctaid : Dim3) (args : List V) : Frame V :=
  { code := F.code
    ctaid := ctaid
    args :=
      if F.remapped then
        Function.update (fun n => args.getD n J.undef) F.code.arity (J.ofNat task)
      else
        fun n => args.getD n J.undef }

/-- What block `b` of a launch does: thread by thread, up to any number of entered blocks of code. -/
def blockRun (C : Config) (R : RtSlots) (m : ByteMem) (M : Module) (J : τ → Meaning V E) (F : Fn)
    (args : List V) (grid b : Dim3) : τ → ℕ → Option V × List E := fun th n =>
  let task := weaveTask C R m (nctaidIntrinsic C.slotAxis grid) (ctaidIntrinsic C.slotAxis b)
  runFrame M.device (J th) ⟨b, grid⟩ n (F.enter (J th) task b args)

/-- The kernel's own reads of the block index give `t`. Then no thread notices whether everything
    else sees `hw` or `hw'`. -/
def Unaware (D : String → Option Code) (J : τ → Meaning V E) (P : Code) (args : List V) (t : Dim3)
    (hw hw' : Coords) : Prop :=
  ∀ th n, runFrame D (J th) hw n ⟨P, t, fun k => args.getD k (J th).undef⟩
    = runFrame D (J th) hw' n ⟨P, t, fun k => args.getD k (J th).undef⟩

theorem unaware_of_seesSame {D : String → Option Code} {J : τ → Meaning V E} {P : Code}
    {hw hw' : Coords}
    (hexec : ∀ th name id vs h, (J th).exec name id hw vs h = (J th).exec name id hw' vs h)
    (hD : ∀ g Q, D g = some Q → Q.SeesSame hw.ctaid hw'.ctaid hw.nctaid hw'.nctaid) {t : Dim3}
    (hP : P.SeesSame t t hw.nctaid hw'.nctaid) (args : List V) :
    Unaware D J P args t hw hw' :=
  fun th n => run_congr (hexec th) hD n hP ..

/-! ## Woven blocks -/

variable {C : Config} {R : RtSlots} {m : ByteMem} {M : Module} {J : τ → Meaning V E} {F : Fn}
  {args : List V} {grid b : Dim3}

theorem Fn.weave_kernel : (F.weave C R).kernel = F.kernel := by
  unfold weave
  split <;> rfl

theorem Fn.weave_code_of_taskBody (h : F.taskBody = true) : (F.weave C R).code = F.code := by
  simp [weave, h]

/-- The pass leaves the code of device functions alone. -/
theorem device_schedWeavePass : (schedWeavePass C R M).device = M.device := by
  funext g
  unfold Module.device schedWeavePass
  cases hg : M g with
  | none => rfl
  | some F =>
      by_cases hw : F.woven = true
      · by_cases hk : F.kernel = true
        · simp [Option.filter, hw, Fn.weave_kernel, hk]
        · have hb : F.taskBody = true := by
            simp only [Fn.woven, Bool.and_eq_true, Bool.or_eq_true] at hw
            exact hw.1.resolve_right hk
          simp [Option.filter, hw, Fn.weave_kernel, hk, Fn.weave_code_of_taskBody hb]
      · simp [hw]

/-- **A woven block**: the kernel of block `b` with its own reads at the task, everything else at `b`. -/
theorem blockRun_weave (hF : F.code.WellFormed) (hbody : F.taskBody = false)
    (hnew : F.remapped = false) (th : τ) (n : ℕ) :
    blockRun C R m (schedWeavePass C R M) J (F.weave C R) args grid b th n =
      runFrame M.device (J th) ⟨b, grid⟩ n
        ⟨F.code, b.set (axisOf C.slotAxis) (weaveTask C R m (nctaidIntrinsic C.slotAxis grid)
          (ctaidIntrinsic C.slotAxis b)), fun k => args.getD k (J th).undef⟩ := by
  simp only [blockRun, device_schedWeavePass]
  by_cases hon : (C.indirect && rtAvailable R.taskOrder) = true
  · have hframe : ∀ t, (F.weave C R).enter (J th) t b args = replacedFrame F.code
        (axisOf C.slotAxis) F.code.arity b (fun k => args.getD k (J th).undef) ((J th).ofNat t) := by
      intro t
      simp [Fn.weave, hbody, hon, Fn.enter, replacedFrame, Code.replaceReads]
    rw [hframe]
    exact runFrame_replaceReads hF (fun c hc => (Dim3.get_set_ne b _ hc).symm)
      (by rw [Dim3.get_set]) n
  · have hself : weaveTask C R m (nctaidIntrinsic C.slotAxis grid) (ctaidIntrinsic C.slotAxis b)
        = b.get (axisOf C.slotAxis) := by
      rw [weaveTask, if_neg hon]
      rfl
    rw [hself, Dim3.set_get]
    simp [Fn.weave, hbody, hon, Fn.enter, hnew]

theorem blockRun_stock (hnew : F.remapped = false) (th : τ) (n : ℕ) :
    blockRun C R m M J F args grid b th n =
      runFrame M.device (J th) ⟨b, grid⟩ n ⟨F.code, b, fun k => args.getD k (J th).undef⟩ := by
  simp [blockRun, Fn.enter, hnew]

end

/-! ## A table for every exchange -/

theorem permutesBelow_swap {i j n : ℕ} (hi : i < n) (hj : j < n) :
    PermutesBelow (Equiv.swap i j) n := by
  rw [permutesBelow_iff]
  refine ⟨fun k hk => ?_, fun k _ l _ h => (Equiv.swap i j).injective h⟩
  rw [Equiv.swap_apply_def]
  split_ifs <;> assumption

/-- A zeroed control block at 64, the order slot's channel pointer at 128 and a table at 256. -/
def channelImage (table : List ℕ) : ByteMem :=
  (ByteMem.zeroed.storeWords 128 [256]).storeWords 256 table

/-- The slots for `channelImage`: a direct table, or one behind the channel pointer. -/
def channelSlots (C : Config) : RtSlots :=
  { taskOrder := { bakedAddr := if C.orderIndirect then 128 else 256 }
    ctrl := { bakedAddr := 64 } }

section

variable {C : Config} {table : List ℕ} {k : ℕ}

theorem channelSlots_base :
    (channelSlots C).taskOrder.base = if C.orderIndirect then 128 else 256 :=
  RtSlot.base_baked (by split <;> decide)

theorem channelSlots_armed : (channelSlots C).taskOrder.Armed :=
  RtSlot.armed_baked (by split <;> decide)

theorem load64_channelImage : (channelImage table).load64 128 = 256 := by
  rw [ByteMem.load64, channelImage, ByteMem.load_storeWords_of_disjoint _ _ _ (Or.inl (by decide))]
  decide

theorem orderTable_channelImage (hk : k < table.length) :
    orderTable C (channelSlots C) (channelImage table) k = table[k] % 2 ^ 32 := by
  have hbase : (if C.orderIndirect then
      (channelImage table).load64 (channelSlots C).taskOrder.base else
        (channelSlots C).taskOrder.base) = 256 := by
    rw [channelSlots_base]
    split
    · exact load64_channelImage
    · rfl
  rw [orderTable, hbase]
  exact ByteMem.load32_storeWords _ _ _ hk

theorem channelSet_channelImage : ChannelSet C (channelSlots C) (channelImage table) := by
  intro hc
  rw [channelSlots_base, if_pos hc, load64_channelImage]
  decide

theorem loadOrderSize_channelImage :
    loadOrderSize (channelImage table) (channelSlots C).ctrl.base = 0 := by
  rw [loadOrderSize, channelSlots, RtSlot.base_baked (by decide), channelImage, ByteMem.load32,
    ByteMem.load_storeWords_of_disjoint _ _ _ (Or.inl (by decide))]
  decide

/-- Any two blocks that the table covers can be exchanged. -/
theorem exists_weaveTask_swap (hind : C.indirect = true) {g i j : ℕ} (hg : g < 2 ^ 32)
    (hi : i < min g C.maxTasks) (hj : j < min g C.maxTasks) :
    ∃ R m, PermutesBelow (weaveTask C R m g) g ∧ weaveTask C R m g i = j := by
  let table := (List.range (min g C.maxTasks)).map (Equiv.swap i j)
  have hswap := permutesBelow_swap hi hj
  have htable : ∀ k < min g C.maxTasks,
      orderTable C (channelSlots C) (channelImage table) k = Equiv.swap i j k := by
    intro k hk
    have hlt : Equiv.swap i j k < 2 ^ 32 := ((hswap.lt hk).trans_le (min_le_left ..)).trans hg
    rw [orderTable_channelImage (by simpa [table] using hk)]
    simp only [table, List.getElem_map, List.getElem_range]
    exact Nat.mod_eq_of_lt hlt
  have hweave : weaveTask C (channelSlots C) (channelImage table) g
      = emitRemap C (channelSlots C) (channelImage table) g := by
    funext p
    rw [weaveTask, if_pos (by simp [hind, channelSlots_armed.available])]
  have hctrl : (channelSlots C).ctrl.Armed := RtSlot.armed_baked (by decide)
  refine ⟨channelSlots C, channelImage table, ?_, ?_⟩
  · rw [hweave]
    exact emitRemap_permutesBelow channelSlots_armed hctrl channelSet_channelImage
      (Or.inr ⟨loadOrderSize_channelImage, hswap.congr fun k hk => (htable k hk).symm⟩)
  · rw [hweave, emitRemap_eq channelSlots_armed hctrl channelSet_channelImage, if_pos,
      htable i hi, Equiv.swap_apply_left]
    rw [htable i hi, Equiv.swap_apply_left]
    exact ⟨hi.trans_le (min_le_right ..), hj.trans_le (min_le_left ..),
      Or.inl loadOrderSize_channelImage⟩

end

/-! ## Which kernels keep their blocks -/

theorem Dim3.Below.set {b grid : Dim3} (h : b.Below grid) {a : Axis} {t : ℕ} (ht : t < grid.get a) :
    (b.set a t).Below grid := by
  intro c
  by_cases hc : c = a
  · rw [hc, Dim3.get_set]
    exact ht
  · rw [Dim3.get_set_ne b t hc]
    exact h c

theorem Dim3.set_set (b : Dim3) (a : Axis) (s t : ℕ) : (b.set a s).set a t = b.set a t := by
  cases a <;> rfl

/-- A permutation of one axis permutes the blocks of the grid. -/
theorem image_set_below {f : ℕ → ℕ} {grid : Dim3} {a : Axis} (hf : PermutesBelow f (grid.get a)) :
    (fun b : Dim3 => b.set a (f (b.get a))) '' {b | b.Below grid} = {b | b.Below grid} := by
  ext b
  constructor
  · rintro ⟨c, hc, rfl⟩
    exact Dim3.Below.set hc (hf.lt (hc a))
  · intro hb
    obtain ⟨i, hi, hfi⟩ := hf.surjOn (Set.mem_Iio.2 (hb a))
    refine ⟨b.set a i, Dim3.Below.set hb hi, ?_⟩
    show (b.set a i).set a (f ((b.set a i).get a)) = b
    rw [Dim3.get_set, hfi, Dim3.set_set, Dim3.set_get]

/-- A block that the table does not cover, or that is sent outside of what it covers, keeps its
    index. -/
theorem weaveTask_eq_self {C : Config} {R : RtSlots} {m : ByteMem} {g i : ℕ}
    (hperm : PermutesBelow (weaveTask C R m g) g) (hi : i < g)
    (h : C.maxTasks ≤ i ∨ C.maxTasks ≤ weaveTask C R m g i) : weaveTask C R m g i = i := by
  have hkeep : ∀ k, C.maxTasks ≤ k → weaveTask C R m g k = k := by
    intro k hk
    unfold weaveTask
    split
    · simp [emitRemap, not_lt.2 hk]
    · rfl
  rcases h with h | h
  · exact hkeep i h
  · exact hperm.inj (hperm.lt hi) hi (hkeep _ h)

section

variable {V E τ : Type}

/-- **When the indirection keeps every block's accesses.** Whatever bijective map is installed, block
    `b` of the woven kernel makes the accesses that the block of its task makes in the original
    kernel, and the launch runs the same set of blocks, if and only if the remap is left out or no
    block notices that everything but the kernel's own reads sees another block of the table. -/
theorem indirection_iff (C : Config) (M : Module) (K : String) (F : Fn) (hK : M K = some F)
    (hwoven : F.woven = true) (hbody : F.taskBody = false) (hF : F.code.WellFormed)
    (J : τ → Meaning V E) (args : List V) :
    (∀ (R : RtSlots) (m : ByteMem) (grid : Dim3) (F' : Fn),
        nctaidIntrinsic C.slotAxis grid < 2 ^ 32 →
        PermutesBelow (weaveTask C R m (nctaidIntrinsic C.slotAxis grid))
          (nctaidIntrinsic C.slotAxis grid) →
        schedWeavePass C R M K = some F' →
        (∀ b, b.Below grid →
          blockRun C R m (schedWeavePass C R M) J F' args grid b
            = blockRun C R m M J F args grid (b.set (axisOf C.slotAxis)
                (weaveTask C R m (nctaidIntrinsic C.slotAxis grid)
                  (ctaidIntrinsic C.slotAxis b)))) ∧
          blockRun C R m (schedWeavePass C R M) J F' args grid '' {b | b.Below grid}
            = blockRun C R m M J F args grid '' {b | b.Below grid}) ↔
      (C.indirect = true → ∀ (grid b : Dim3) (t : ℕ), nctaidIntrinsic C.slotAxis grid < 2 ^ 32 →
        b.Below grid → t < nctaidIntrinsic C.slotAxis grid → t < C.maxTasks →
        ctaidIntrinsic C.slotAxis b < C.maxTasks →
        Unaware M.device J F.code args (b.set (axisOf C.slotAxis) t)
          ⟨b.set (axisOf C.slotAxis) t, grid⟩ ⟨b, grid⟩) := by
  have hnew := F.not_remapped_of_woven hwoven
  have hpass : ∀ R, schedWeavePass C R M K = some (F.weave C R) := by
    intro R
    rw [schedWeavePass, hK, Option.map_some, if_pos hwoven]
  constructor
  · intro h hind grid b t hgrid hb ht htmax hbmax th n
    obtain ⟨R, m, hperm, htask⟩ := exists_weaveTask_swap hind hgrid
      (lt_min (hb (axisOf C.slotAxis)) hbmax) (lt_min ht htmax)
    have hblock := congrFun (congrFun ((h R m grid _ hgrid hperm (hpass R)).1 b hb) th) n
    have htask' : weaveTask C R m (nctaidIntrinsic C.slotAxis grid) (ctaidIntrinsic C.slotAxis b)
        = t := htask
    rw [blockRun_weave hF hbody hnew, blockRun_stock hnew, htask'] at hblock
    exact hblock.symm
  · intro h R m grid F' hgrid hperm hF'
    obtain rfl : F.weave C R = F' := Option.some.inj ((hpass R).symm.trans hF')
    have hblocks : ∀ b, b.Below grid →
        blockRun C R m (schedWeavePass C R M) J (F.weave C R) args grid b
          = blockRun C R m M J F args grid (b.set (axisOf C.slotAxis)
              (weaveTask C R m (nctaidIntrinsic C.slotAxis grid)
                (ctaidIntrinsic C.slotAxis b))) := by
      intro b hb
      have hlt : ctaidIntrinsic C.slotAxis b < nctaidIntrinsic C.slotAxis grid := hb _
      funext th n
      rw [blockRun_weave hF hbody hnew, blockRun_stock hnew]
      by_cases hself : weaveTask C R m (nctaidIntrinsic C.slotAxis grid)
          (ctaidIntrinsic C.slotAxis b) = ctaidIntrinsic C.slotAxis b
      · rw [hself, ctaidIntrinsic, Dim3.set_get]
      · have hind : C.indirect = true := by
          by_contra hoff
          exact hself (by simp [weaveTask, hoff])
        have hcovered := mt (weaveTask_eq_self hperm hlt) hself
        rw [not_or, not_le, not_le] at hcovered
        exact (h hind grid b _ hgrid hb (hperm.lt hlt) hcovered.2 hcovered.1 th n).symm
    refine ⟨hblocks, ?_⟩
    refine (Set.image_congr fun b hb => hblocks b hb).trans ?_
    exact (Set.image_image _ _ _).symm.trans (congrArg _ (image_set_below hperm))

end

/-! ## A kernel with a device function -/

/-- A function without branches. -/
def straightLine (l : List Instr) (next : ℕ) : Func where
  cfg := { entry := 0, succ := fun _ => [] }
  blocks := [0]
  body b := if b = 0 then l else []
  next := next

theorem straightLine_wellFormed {l : List Instr} {T : Instr} {next : ℕ}
    (hids : ((l ++ [T]).map Instr.id).Nodup) (hfresh : ∀ I ∈ l ++ [T], I.id < next)
    (hplain : ∀ I ∈ l, I.op ≠ .phi ∧ I.op ≠ .terminator) (hT : T.op = .terminator)
    (hin : ∀ I ∈ l ++ [T], I.incoming = []) : (straightLine (l ++ [T]) next).WellFormed := by
  have hphi : ∀ I ∈ l ++ [T], I.op ≠ .phi := by
    intro I hI
    rcases List.mem_append.1 hI with hI | hI
    · exact (hplain I hI).1
    · rw [List.mem_singleton.1 hI, hT]
      decide
  have hinstr : (straightLine (l ++ [T]) next).instructions = l ++ [T] :=
    List.flatMap_singleton ..
  refine Func.Checks.wellFormed ⟨List.mem_cons_self .., fun _ _ _ hc => (nomatch hc), ?_, ?_, ?_⟩ ?_
  · rwa [hinstr]
  · rw [hinstr]
    exact fun I hI => ⟨hfresh I hI, fun _ => hin I hI⟩
  · intro b hb
    obtain rfl := List.mem_singleton.1 hb
    refine ⟨List.pairwise_of_forall_mem_list fun I _ J hJ h => absurd h (hphi J hJ), ?_, ?_⟩
    · simpa [straightLine] using fun I hI => (hplain I hI).2
    · simp [straightLine, hT]
  · intro b hb
    exact if_neg fun h => hb (List.mem_singleton.2 h)

def ctaidX (id : ℕ) : Instr :=
  { id := id, op := .call (some .other) (some "llvm.nvvm.read.ptx.sreg.ctaid.x"), ty := .int 32 }

/-- `out[blockIdx.x][tile()] = …`: value 1 is the block's index, 2 what `tile` returns. -/
def storeTile : Code where
  name := "k"
  func := straightLine
    ([ctaidX 1, { id := 2, op := .call none (some "tile"), ty := .int 32 },
      { id := 3, op := .other, ty := .other, args := [.inst 1, .inst 2] }]
      ++ [{ id := 4, op := .terminator, ty := .other }]) 5
  arity := 0

def storeTileFn : Fn := { code := storeTile, kernel := true }

/-- `tile` returns a constant. -/
def constTile : List Instr := [{ id := 1, op := .terminator, ty := .other, args := [.otherConst 0] }]

/-- `tile` returns the block's index. -/
def indexTile : List Instr :=
  [ctaidX 1, { id := 2, op := .terminator, ty := .other, args := [.inst 1] }]

/-- A module with `storeTile` as its kernel and the given body of `tile`. -/
def tileModule (tile : List Instr) : Module := fun g =>
  if g = "k" then some storeTileFn
  else if g = "tile" then
    some { code := { name := "tile", func := straightLine tile 3, arity := 0 }, kernel := false }
  else none

/-- The store is the one access, with the index and the tile it is given. -/
def storeMeaning (_ : Unit) : Meaning ℕ (List ℕ) where
  ofNat n := n
  undef := 0
  const _ _ := 0
  exec name id _ vs _ := if name = "k" ∧ id = 3 then ([vs], 0) else ([], 0)
  branch _ _ _ := 0
  target _ := none

theorem storeTile_wellFormed : storeTile.WellFormed where
  func := straightLine_wellFormed (by decide) (by decide) (by decide) rfl (by decide)
  valid := by
    refine (straightLine_wellFormed (by decide) (by decide) (by decide) rfl
      (by decide)).valid_of_check ?_
    decide +kernel
  args_below := by
    intro b I hI
    by_cases hb : b = 0
    · revert I
      rw [hb]
      decide
    · simp [storeTile, straightLine, hb] at hI

theorem constTile_seesSame (t t' nctaid nctaid' : Dim3) {g : String} {Q : Code}
    (hQ : (tileModule constTile).device g = some Q) : Q.SeesSame t t' nctaid nctaid' := by
  have hbody : ∀ b, ∀ I ∈ Q.func.body b, I.sreg = none := by
    by_cases hk : g = "k"
    · simp [Module.device, tileModule, storeTileFn, hk, Option.filter] at hQ
    · by_cases ht : g = "tile"
      · simp [Module.device, tileModule, ht, Option.filter] at hQ
        subst hQ
        intro b I hI
        by_cases hb : b = 0
        · simp only [straightLine, hb, if_true, constTile, List.mem_singleton] at hI
          rw [hI]
          rfl
        · simp [straightLine, hb] at hI
      · simp [Module.device, tileModule, hk, ht] at hQ
  intro b I hI a
  simp [hbody b I hI]

/-- With a `tile` that returns a constant, exchanged blocks make each other's accesses. -/
theorem indirection_iff_constTile :
    blockRun {} bakedSlots (planeImage 64 1024 [1, 0] 2 2)
        (schedWeavePass {} bakedSlots (tileModule constTile)) storeMeaning
        (storeTileFn.weave {} bakedSlots) [] ⟨2, 1, 1⟩ ⟨0, 0, 0⟩
      = blockRun {} bakedSlots (planeImage 64 1024 [1, 0] 2 2) (tileModule constTile) storeMeaning
        storeTileFn [] ⟨2, 1, 1⟩ ⟨1, 0, 0⟩ := by
  have hiff := indirection_iff {} (tileModule constTile) "k" storeTileFn rfl rfl rfl
    storeTile_wellFormed storeMeaning []
  have hblocks := hiff.2 fun _ grid b t _ _ _ _ _ => by
    refine unaware_of_seesSame ?_ ?_ ?_ []
    · exact fun _ _ _ _ _ => rfl
    · exact fun g Q hQ => constTile_seesSame _ _ _ _ hQ
    · exact fun _ _ _ _ => ⟨fun _ => rfl, fun _ => rfl⟩
  exact (hblocks bakedSlots (planeImage 64 1024 [1, 0] 2 2) ⟨2, 1, 1⟩ _ (by decide) (by decide)
    rfl).1 ⟨0, 0, 0⟩ fun a => by cases a <;> decide

/-- **A device function that reads the block's index keeps the old one**: block 0 runs task 1, and mixes
    the index of the one with the tile of the other. -/
theorem deviceRead_mixes_blocks :
    PermutesBelow (weaveTask {} bakedSlots (planeImage 64 1024 [1, 0] 2 2) 2) 2 ∧
      weaveTask {} bakedSlots (planeImage 64 1024 [1, 0] 2 2) 2 0 = 1 ∧
      schedWeavePass {} bakedSlots (tileModule indexTile) "k"
        = some (storeTileFn.weave {} bakedSlots) ∧
      blockRun {} bakedSlots (planeImage 64 1024 [1, 0] 2 2)
          (schedWeavePass {} bakedSlots (tileModule indexTile)) storeMeaning
          (storeTileFn.weave {} bakedSlots) [] ⟨2, 1, 1⟩ ⟨0, 0, 0⟩ () 3 = (some 0, [[1, 0]]) ∧
      blockRun {} bakedSlots (planeImage 64 1024 [1, 0] 2 2) (tileModule indexTile) storeMeaning
          storeTileFn [] ⟨2, 1, 1⟩ ⟨1, 0, 0⟩ () 3 = (some 0, [[1, 1]]) := by
  refine ⟨by decide, by decide, rfl, ?_, ?_⟩
  · decide +kernel
  · decide +kernel

end SchedPass
