import SchedPass.Weave.MuForm
import SchedPass.Weave.Policy
import SchedPass.WorkQueue.Body

set_option autoImplicit false

/-! # Stream sites in the task body (`cloneBody`, `findPrefetchSites`)

A work-queue build finds its sites in the clone, where the task parameter stands for the reads of the
slot axis. The search for a loaded index stops at a read as it does at a parameter, so it answers for
the clone as for the kernel (`hasLoadedIndex_replaceReads`). The search for the slot's `ctaid` has
nothing left to find (`reachesSlotCtaid_replaceReads`): no site of the clone is arithmetic, and a kernel
with arithmetic sites loses policy and shed (`sites_cloneBody_iff`). -/

namespace SchedPass

section

variable {F : Func} {a : Axis} {n v : ℕ} {x y : Operand}

/-! ## The rewritten definitions -/

theorem Func.replaceReads_blocks (x : Operand) : (F.replaceReads a x).blocks = F.blocks := by
  unfold replaceReads
  generalize F.ctaidReads a = olds
  induction olds generalizing F with
  | nil => rfl
  | cons v olds ih => exact ih

theorem Func.WellFormed.replaceReads_instructions (hF : F.WellFormed) :
    (F.replaceReads a (.arg n)).instructions
      = (F.instructions.filter fun I => I.sreg ≠ some (.ctaid a)).map
          fun I => I.substUses (F.ctaidReads a) (.arg n) := by
  have hbody : (F.replaceReads a (.arg n)).body = _ := funext hF.replaceReads_body
  unfold Func.instructions
  rw [Func.replaceReads_blocks, hbody, List.filter_flatMap, List.map_flatMap]

/-- Another value's definition stays, with its operands rewritten. -/
theorem Func.WellFormed.replaceReads_instr (hF : F.WellFormed) (hv : v ∉ F.ctaidReads a) :
    (F.replaceReads a (.arg n)).instr v
      = (F.instr v).map fun I => I.substUses (F.ctaidReads a) (.arg n) := by
  unfold Func.instr
  rw [hF.replaceReads_instructions, List.find?_map, List.find?_filter]
  refine congrArg _ (List.find?_congr fun I hI => ?_)
  by_cases hid : I.id = v
  · have hread : I.sreg ≠ some (.ctaid a) := by
      intro hread
      exact hv (List.mem_map.2 ⟨I, List.mem_filter.2 ⟨hI, decide_eq_true hread⟩, hid⟩)
    simp [Instr.substUses, hid, hread]
  · simp [Instr.substUses, hid]

theorem Operand.subst_inst_of_mem {olds : List ℕ} (hv : v ∈ olds) :
    (Operand.inst v).subst olds x = x := if_pos hv

theorem Operand.subst_inst_of_not_mem {olds : List ℕ} (hv : v ∉ olds) :
    (Operand.inst v).subst olds x = .inst v := if_neg hv

/-- Whatever is no read is defined as before, with its operands rewritten. -/
theorem Func.WellFormed.definedBy_replaceReads (hF : F.WellFormed)
    (hy : ∀ v ∈ F.ctaidReads a, y ≠ .inst v) :
    (F.replaceReads a (.arg n)).definedBy (y.subst (F.ctaidReads a) (.arg n))
      = (F.definedBy y).map fun I => I.substUses (F.ctaidReads a) (.arg n) := by
  cases y with
  | inst v =>
      have hv : v ∉ F.ctaidReads a := fun hv => hy v hv rfl
      rw [Operand.subst_inst_of_not_mem hv]
      exact hF.replaceReads_instr hv
  | _ => rfl

theorem Instr.op_of_sreg {I : Instr} {r : SReg} (h : I.sreg = some r) :
    ∃ intrinsic name, I.op = .call (some intrinsic) (some name) := by
  unfold sreg at h
  split at h
  · next intrinsic name hop => exact ⟨intrinsic, name, hop⟩
  · cases h

/-- A read is defined by a call. -/
theorem Func.WellFormed.definedBy_read (hF : F.WellFormed) (hv : v ∈ F.ctaidReads a) :
    ∃ I intrinsic name, F.definedBy (.inst v) = some I ∧
      I.op = .call (some intrinsic) (some name) := by
  obtain ⟨I, hI, rfl⟩ := List.mem_map.1 hv
  obtain ⟨hI, hread⟩ := List.mem_filter.1 hI
  obtain ⟨b, -, hI⟩ := List.mem_flatMap.1 hI
  obtain ⟨intrinsic, name, hop⟩ := Instr.op_of_sreg (of_decide_eq_true hread)
  exact ⟨I, intrinsic, name, hF.instr_eq hI, hop⟩

theorem Instr.getPointerOperand_substUses (I : Instr) (olds : List ℕ) :
    (I.substUses olds x).getPointerOperand = I.getPointerOperand.subst olds x := by
  unfold getPointerOperand substUses
  cases I.args <;> rfl

theorem Instr.incoming_substUses (I : Instr) (olds : List ℕ) :
    (I.substUses olds x).incoming.map Prod.snd
      = (I.incoming.map Prod.snd).map fun y => y.subst olds x := by
  simp [substUses]

end

/-! ## The two searches in the clone -/

namespace SiteAnalyses

/-- LLVM tells the kinds of the rewritten instructions apart as before. -/
def SameKinds (A A' : SiteAnalyses) (F : Func) (olds : List ℕ) (x : Operand) : Prop :=
  ∀ I ∈ F.instructions, A'.isGetElementPtr (I.substUses olds x) = A.isGetElementPtr I ∧
    A'.isUnaryOperator (I.substUses olds x) = A.isUnaryOperator I

variable {A A' : SiteAnalyses} {C : Config} {F : Func} {a : Axis} {n v : ℕ}

theorem isLoad_of_read (hF : F.WellFormed) (hv : v ∈ F.ctaidReads a) :
    F.isLoad (.inst v) = false := by
  obtain ⟨I, intrinsic, name, hdef, hop⟩ := hF.definedBy_read hv
  rw [Func.isLoad, hdef]
  simp [hop]

/-- The search stops at a read. -/
theorem isLeaf_of_read (hF : F.WellFormed) (hv : v ∈ F.ctaidReads a) :
    IsLeaf (A.indexNext F) F.isLoad (.inst v) := by
  obtain ⟨I, intrinsic, name, hdef, hop⟩ := hF.definedBy_read hv
  refine ⟨?_, isLoad_of_read hF hv⟩
  rw [indexNext, hdef]
  simp [isGEP, hop]

theorem isLoad_replaceReads (hF : F.WellFormed) (y : Operand) :
    (F.replaceReads a (.arg n)).isLoad (y.subst (F.ctaidReads a) (.arg n)) = F.isLoad y := by
  by_cases hy : ∃ v ∈ F.ctaidReads a, y = .inst v
  · obtain ⟨v, hv, rfl⟩ := hy
    rw [Operand.subst_inst_of_mem hv, isLoad_of_read hF hv]
    rfl
  · rw [Func.isLoad, hF.definedBy_replaceReads fun v hv h => hy ⟨v, hv, h⟩, Func.isLoad]
    cases F.definedBy y <;> rfl

theorem indexNext_replaceReads (hF : F.WellFormed)
    (hkinds : A.SameKinds A' F (F.ctaidReads a) (.arg n)) (y : Operand) :
    A'.indexNext (F.replaceReads a (.arg n)) (y.subst (F.ctaidReads a) (.arg n))
      = (A.indexNext F y).map fun y => y.subst (F.ctaidReads a) (.arg n) := by
  by_cases hy : ∃ v ∈ F.ctaidReads a, y = .inst v
  · obtain ⟨v, hv, rfl⟩ := hy
    rw [Operand.subst_inst_of_mem hv, (isLeaf_of_read hF hv).1]
    rfl
  · rw [indexNext, hF.definedBy_replaceReads fun v hv h => hy ⟨v, hv, h⟩, indexNext]
    cases hI : F.definedBy y with
    | none => rfl
    | some I =>
        obtain ⟨hgep, hunary⟩ := hkinds I (Func.mem_instructions_of_definedBy hI)
        have hop : (I.substUses (F.ctaidReads a) (.arg n)).op = I.op := rfl
        have hargs : (I.substUses (F.ctaidReads a) (.arg n)).args
            = I.args.map fun y => y.subst (F.ctaidReads a) (.arg n) := rfl
        have hisGEP : A'.isGEP (I.substUses (F.ctaidReads a) (.arg n)) = A.isGEP I := by
          rw [isGEP, isGEP, hop, hgep]
        simp only [Option.map_some, hop, hargs, hisGEP, hunary, Instr.incoming_substUses]
        by_cases hother : A.isGEP I = true
        · rw [if_pos hother, if_pos hother]
        · rw [if_neg hother, if_neg hother]
          split
          · rfl
          · rfl
          · rfl
          · rfl
          · split <;> rfl
          · rfl

/-- Rewriting identifies the reads with each other and with the new parameter, at all of which the
    search stops. -/
theorem subst_inj (hF : F.WellFormed) {x y : Operand}
    (h : x.subst (F.ctaidReads a) (.arg n) = y.subst (F.ctaidReads a) (.arg n)) :
    x = y ∨ IsLeaf (A.indexNext F) F.isLoad x ∧ IsLeaf (A.indexNext F) F.isLoad y := by
  have hleaf : ∀ x : Operand, x.subst (F.ctaidReads a) (.arg n) = x ∨
      x.subst (F.ctaidReads a) (.arg n) = .arg n ∧ IsLeaf (A.indexNext F) F.isLoad x := by
    intro x
    cases x with
    | inst v =>
        by_cases hv : v ∈ F.ctaidReads a
        · exact Or.inr ⟨Operand.subst_inst_of_mem hv, isLeaf_of_read hF hv⟩
        · exact Or.inl (Operand.subst_inst_of_not_mem hv)
    | _ => exact Or.inl rfl
  have harg : IsLeaf (A.indexNext F) F.isLoad (.arg n) := ⟨rfl, rfl⟩
  rcases hleaf x with hx | ⟨hx, hxleaf⟩
  · rcases hleaf y with hy | ⟨hy, hyleaf⟩
    · exact Or.inl (hx ▸ hy ▸ h)
    · rw [hx, hy] at h
      exact Or.inr ⟨h ▸ harg, hyleaf⟩
  · rcases hleaf y with hy | ⟨hy, hyleaf⟩
    · rw [hx, hy] at h
      exact Or.inr ⟨hxleaf, h ▸ harg⟩
    · exact Or.inr ⟨hxleaf, hyleaf⟩

/-- **Whether an address depends on a loaded value is answered for the clone as for the kernel**, step
    for step. -/
theorem hasLoadedIndex_replaceReads (hF : F.WellFormed)
    (hkinds : A.SameKinds A' F (F.ctaidReads a) (.arg n)) (V : Operand) :
    A'.hasLoadedIndex (F.replaceReads a (.arg n)) (V.subst (F.ctaidReads a) (.arg n))
      = A.hasLoadedIndex F V := by
  have hwalk : walk (A'.indexNext (F.replaceReads a (.arg n))) (F.replaceReads a (.arg n)).isLoad 256
      ([V].map fun y => y.subst (F.ctaidReads a) (.arg n)) []
        = (walk (A.indexNext F) F.isLoad 256 [V] []).map fun y =>
            y.subst (F.ctaidReads a) (.arg n) :=
    walk_map (indexNext_replaceReads hF hkinds) (isLoad_replaceReads hF) (fun _ _ => subst_inj hF)
      fun y _ => iff_of_false List.not_mem_nil List.not_mem_nil
  have hsome := congrArg Option.isSome hwalk
  rwa [Option.isSome_map] at hsome

/-- **No address of the clone derives from the slot's `ctaid`.** -/
theorem reachesSlotCtaid_replaceReads (hF : F.WellFormed) (V : Operand) :
    A.reachesSlotCtaid C (F.replaceReads (axisOf C.slotAxis) (.arg n)) V = false := by
  refine Option.isSome_eq_false_iff.2 (Option.isNone_iff_eq_none.2 ?_)
  refine Option.eq_none_iff_forall_ne_some.2 fun x hx => ?_
  have hfound := walk_found hx
  cases hI : (F.replaceReads (axisOf C.slotAxis) (.arg n)).definedBy x with
  | none => simp [hI] at hfound
  | some I =>
      rw [hI] at hfound
      have hmem := Func.mem_instructions_of_definedBy hI
      rw [hF.replaceReads_instructions] at hmem
      obtain ⟨J, hJ, rfl⟩ := List.mem_map.1 hmem
      exact of_decide_eq_true (List.mem_filter.1 hJ).2 (beq_iff_eq.1 hfound)

/-! ## The passes over the clone -/

theorem instrs_replaceReads (hF : F.WellFormed) (L : Loop) :
    instrs (F.replaceReads a (.arg n)) L
      = ((instrs F L).filter fun I => I.sreg ≠ some (.ctaid a)).map
          fun I => I.substUses (F.ctaidReads a) (.arg n) := by
  have hbody : (F.replaceReads a (.arg n)).body = _ := funext hF.replaceReads_body
  rw [instrs, hbody, instrs, List.filter_flatMap, List.map_flatMap]

theorem innerInstrs_replaceReads (hF : F.WellFormed) (hloops : A'.loopInfo = A.loopInfo) :
    A'.innerInstrs (F.replaceReads a (.arg n))
      = ((A.innerInstrs F).filter fun p => p.2.sreg ≠ some (.ctaid a)).map
          fun p => (p.1, p.2.substUses (F.ctaidReads a) (.arg n)) := by
  have hinner : A'.Inner = A.Inner := by rw [Inner, Inner, hloops]
  rw [innerInstrs, innerInstrs, hinner, List.filter_flatMap, List.map_flatMap]
  simp only [instrs_replaceReads hF, List.filter_map, List.map_map]
  rfl

theorem isIndexed_replaceReads (hF : F.WellFormed)
    (hkinds : A.SameKinds A' F (F.ctaidReads a) (.arg n)) (I : Instr) :
    A'.isIndexed (F.replaceReads a (.arg n)) (I.substUses (F.ctaidReads a) (.arg n))
      = A.isIndexed F I := by
  rw [isIndexed, isIndexed, Instr.getPointerOperand_substUses, hasLoadedIndex_replaceReads hF hkinds]
  rfl

theorem isIndexed_of_sreg {I : Instr} {r : SReg} (h : I.sreg = some r) :
    A.isIndexed F I = false := by
  obtain ⟨intrinsic, name, hop⟩ := Instr.op_of_sreg h
  simp [isIndexed, hop]

/-- A read is no load, so leaving it out changes nothing that asks for one. -/
theorem isIndexed_eq_false_or (I : Instr) (a : Axis) :
    A.isIndexed F I = false ∨ decide (I.sreg ≠ some (.ctaid a)) = true := by
  by_cases hread : I.sreg = some (.ctaid a)
  · exact Or.inl (isIndexed_of_sreg hread)
  · exact Or.inr (decide_eq_true hread)

theorem sawLoadedIndex_replaceReads (hF : F.WellFormed) (hloops : A'.loopInfo = A.loopInfo)
    (hkinds : A.SameKinds A' F (F.ctaidReads a) (.arg n)) :
    A'.sawLoadedIndex (F.replaceReads a (.arg n)) = A.sawLoadedIndex F := by
  rw [sawLoadedIndex, sawLoadedIndex, innerInstrs_replaceReads hF hloops, List.any_map,
    List.any_filter]
  congr 1
  funext p
  show (_ && A'.isIndexed _ _) = A.isIndexed F p.2
  rw [isIndexed_replaceReads hF hkinds]
  rcases isIndexed_eq_false_or (A := A) (F := F) p.2 a with hfalse | hkeep
  · rw [hfalse, Bool.and_false]
  · rw [hkeep, Bool.true_and]

/-- The site at a load, if its address depends on a loaded value and has a stride. -/
def siteAt (indexed : Bool) (Ld : ℕ) (Bytes : ℤ) : Option PrefetchSite :=
  if indexed && decide (Bytes ≠ 0) then some ⟨Ld, Bytes⟩ else none

theorem load_of_siteAt {indexed : Bool} {Ld : ℕ} {Bytes : ℤ} {S : PrefetchSite}
    (h : siteAt indexed Ld Bytes = some S) : S.Load = Ld := by
  unfold siteAt at h
  split at h
  · rw [← Option.some.inj h]
  · cases h

theorem siteAt_eq_iff {indexed : Bool} {Ld : ℕ} {Bytes Bytes' : ℤ} :
    siteAt indexed Ld Bytes = siteAt indexed Ld Bytes' ↔ (indexed = true → Bytes' = Bytes) := by
  unfold siteAt
  cases indexed with
  | false => simp
  | true =>
      by_cases hBytes : Bytes = 0 <;> by_cases hBytes' : Bytes' = 0 <;>
        simp [hBytes, hBytes', eq_comm]

/-- Pass 1's site at the clone of an instruction. -/
def clonedSite (A A' : SiteAnalyses) (F : Func) (a : Axis) (n : ℕ) (p : Loop × Instr) :
    Option PrefetchSite :=
  siteAt (A.isIndexed F p.2) p.2.id (A'.strideOf (p.2.substUses (F.ctaidReads a) (.arg n)) p.1)

theorem filterMap_indexedSite_replaceReads (hF : F.WellFormed) (hloops : A'.loopInfo = A.loopInfo)
    (hkinds : A.SameKinds A' F (F.ctaidReads a) (.arg n)) :
    (A'.innerInstrs (F.replaceReads a (.arg n))).filterMap
        (A'.indexedSite (F.replaceReads a (.arg n)))
      = (A.innerInstrs F).filterMap (A.clonedSite A' F a n) := by
  rw [innerInstrs_replaceReads hF hloops, List.filterMap_map, List.filterMap_filter]
  refine List.filterMap_congr fun p _ => ?_
  have hsite : A'.indexedSite (F.replaceReads a (.arg n))
      (p.1, p.2.substUses (F.ctaidReads a) (.arg n)) = A.clonedSite A' F a n p := by
    rw [indexedSite, isIndexed_replaceReads hF hkinds]
    rfl
  rw [Function.comp_apply, hsite]
  rcases isIndexed_eq_false_or (A := A) (F := F) p.2 a with hfalse | hkeep
  · rw [clonedSite, hfalse]
    exact ite_self _
  · rw [if_pos hkeep]

/-- The instructions that pass 1 gets to. -/
def firstPass (A : SiteAnalyses) (F : Func) : List (Loop × Instr) :=
  collectVisits (A.indexedSite F) 4 (A.innerInstrs F)

/-- **Pass 1 finds the same sites in the clone if and only if each address that it sees to depend on a
    loaded value has the same stride there.** -/
theorem findIndexedSites_replaceReads_iff (hF : F.WellFormed) (hloops : A'.loopInfo = A.loopInfo)
    (hkinds : A.SameKinds A' F (F.ctaidReads a) (.arg n))
    (hblocks : (A.Inner.flatMap Loop.blocks).Nodup) :
    (A'.findIndexedSites (F.replaceReads a (.arg n))).1 = (A.findIndexedSites F).1 ↔
      ∀ p ∈ A.firstPass F, A.isIndexed F p.2 = true →
        A'.strideOf (p.2.substUses (F.ctaidReads a) (.arg n)) p.1 = A.strideOf p.2 p.1 := by
  have hkeyed : Keyed (fun p : Loop × Instr => p.2.id) PrefetchSite.Load (A.indexedSite F) :=
    fun _ _ h => load_of_siteAt h
  have hkeyed' : Keyed (fun p : Loop × Instr => p.2.id) PrefetchSite.Load
      (A.clonedSite A' F a n) := fun _ _ h => load_of_siteAt h
  rw [findIndexedSites_fst, findIndexedSites_fst,
    filterMap_indexedSite_replaceReads hF hloops hkinds, eq_comm,
    take_filterMap_eq_iff hkeyed hkeyed' 4 (nodup_innerInstrs hF hblocks)]
  exact forall₂_congr fun p _ => siteAt_eq_iff

/-- **Pass 2 finds nothing in the clone.** -/
theorem findArithmeticSites_replaceReads (hF : F.WellFormed) :
    A.findArithmeticSites C (F.replaceReads (axisOf C.slotAxis) (.arg n)) = [] := by
  refine findArithmeticSites_eq_nil.2 (arithmeticStreams_eq_nil_iff.2 fun p _ => ?_)
  rw [isArithmeticStream, reachesSlotCtaid_replaceReads hF, Bool.and_false]

end SiteAnalyses

/-! ## What is woven -/

/-- `SiteAnalyses`, with what `findAsyncStreamSites` asks of the inline assembly that is called. -/
structure WeaveAnalyses extends SiteAnalyses where
  /-- A `cp.async` with a source in global memory. -/
  isAsyncCopy : Instr → Bool

/-- The levers that work on the stream sites. -/
structure Levers where
  policy : Bool
  shed : Bool
  deriving DecidableEq, Repr

namespace WeaveAnalyses

variable (A A' : WeaveAnalyses) (C : WeaveConfig) (R : RtSlots) (F : Func) (P : Code)

/-- A call of inline assembly has neither an intrinsic nor a callee. -/
def findAsyncStreamSites : List ℕ :=
  ((F.instructions.filter fun I => I.op == .call none none && A.isAsyncCopy I).map Instr.id).take 4

/-- Which levers `Weaver::run` weaves into the function. -/
def levers : Levers :=
  let CtrlAvail := rtAvailable R.ctrl
  let Sites := if (C.policy || C.shed) && CtrlAvail then A.findPrefetchSites C.toConfig F else []
  let AsyncSites := if C.policy && CtrlAvail then A.findAsyncStreamSites F else []
  { policy := C.policy && (!Sites.isEmpty || !AsyncSites.isEmpty)
    shed := C.shed && !Sites.isEmpty }

/-- An instruction in the clone. -/
def clone (C : Config) (P : Code) (I : Instr) : Instr :=
  I.substUses (P.func.ctaidReads (axisOf C.slotAxis)) (.arg P.arity)

/-- What LLVM says of the loops and instructions of the kernel, it says of the clone. Nothing is said
    of scalar evolution, where a parameter and a read need not be equal. -/
structure SeesClone (C : Config) : Prop where
  loopInfo : A'.loopInfo = A.loopInfo
  isGetElementPtr : ∀ I ∈ P.func.instructions,
    A'.isGetElementPtr (clone C P I) = A.isGetElementPtr I
  isUnaryOperator : ∀ I ∈ P.func.instructions,
    A'.isUnaryOperator (clone C P I) = A.isUnaryOperator I
  isAsyncCopy : ∀ I ∈ P.func.instructions, A'.isAsyncCopy (clone C P I) = A.isAsyncCopy I

variable {A A' C R F P}

theorem SeesClone.sameKinds {C : Config} (h : A.SeesClone A' P C) :
    A.SameKinds A'.toSiteAnalyses P.func (P.func.ctaidReads (axisOf C.slotAxis)) (.arg P.arity) :=
  fun I hI => ⟨h.isGetElementPtr I hI, h.isUnaryOperator I hI⟩

theorem findAsyncStreamSites_cloneBody {C : Config} (hP : P.WellFormed) (h : A.SeesClone A' P C) :
    A'.findAsyncStreamSites (P.cloneBody C).func = A.findAsyncStreamSites P.func := by
  have hinstrs : (P.cloneBody C).func.instructions = _ :=
    hP.func.replaceReads_instructions (a := axisOf C.slotAxis) (n := P.arity)
  rw [findAsyncStreamSites, findAsyncStreamSites, hinstrs, List.filter_map, List.filter_filter,
    List.map_map]
  congr 2
  refine List.filter_congr fun I hI => ?_
  have hasync : A'.isAsyncCopy (I.substUses (P.func.ctaidReads (axisOf C.slotAxis)) (.arg P.arity))
      = A.isAsyncCopy I := h.isAsyncCopy I hI
  show (((I.op == .call none none) && A'.isAsyncCopy _) && _) = _
  rw [hasync]
  by_cases hread : I.sreg = some (.ctaid (axisOf C.slotAxis))
  · obtain ⟨intrinsic, name, hop⟩ := Instr.op_of_sreg hread
    simp [hop]
  · rw [decide_eq_true hread, Bool.and_true]

/-- The levers follow the sites. -/
theorem levers_cloneBody (hP : P.WellFormed) (h : A.SeesClone A' P C.toConfig)
    (hsites : A'.notedSites C.toConfig (P.cloneBody C.toConfig).func
      = A.notedSites C.toConfig P.func) :
    A'.levers C R (P.cloneBody C.toConfig).func = A.levers C R P.func := by
  have hfind : A'.findPrefetchSites C.toConfig (P.cloneBody C.toConfig).func
      = A.findPrefetchSites C.toConfig P.func := by
    rw [← SiteAnalyses.map_fst_notedSites, hsites, SiteAnalyses.map_fst_notedSites]
  rw [levers, levers, hfind, findAsyncStreamSites_cloneBody hP h]

/-- **When a work-queue build weaves what a plain build weaves.** The sites of the clone are those of
    the kernel, with the strides and the forms, and so are the levers, if and only if the kernel has an
    address that is seen to depend on a loaded value and each one that pass 1 gets to has the same
    stride in the clone, or it has neither such an address nor an arithmetic stream. -/
theorem sites_cloneBody_iff (A A' : WeaveAnalyses) (C : WeaveConfig) (R : RtSlots) (P : Code)
    (hP : P.WellFormed) (hclone : A.SeesClone A' P C.toConfig)
    (hblocks : (A.Inner.flatMap Loop.blocks).Nodup) :
    (A'.notedSites C.toConfig (P.cloneBody C.toConfig).func = A.notedSites C.toConfig P.func ∧
        A'.levers C R (P.cloneBody C.toConfig).func = A.levers C R P.func) ↔
      (A.sawLoadedIndex P.func = true ∧ ∀ p ∈ A.firstPass P.func, A.isIndexed P.func p.2 = true →
          A'.strideOf (clone C.toConfig P p.2) p.1 = A.strideOf p.2 p.1) ∨
        (A.sawLoadedIndex P.func = false ∧ A.arithmeticStreams C.toConfig P.func = []) := by
  rw [and_iff_left_of_imp (levers_cloneBody hP hclone)]
  have hkinds := hclone.sameKinds
  have hsaw : A'.sawLoadedIndex (P.cloneBody C.toConfig).func = A.sawLoadedIndex P.func :=
    SiteAnalyses.sawLoadedIndex_replaceReads hP.func hclone.loopInfo hkinds
  rw [SiteAnalyses.notedSites_eq, SiteAnalyses.notedSites_eq, hsaw]
  cases A.sawLoadedIndex P.func with
  | true =>
      have hpass := SiteAnalyses.findIndexedSites_replaceReads_iff hP.func hclone.loopInfo hkinds
        hblocks
      have hinj : Function.Injective fun S : PrefetchSite => (S, MuForm.indexBased) :=
        fun S S' h => congrArg Prod.fst h
      rw [if_pos rfl, if_pos rfl, (List.map_injective_iff.2 hinj).eq_iff]
      refine hpass.trans ⟨fun h => Or.inl ⟨rfl, h⟩, ?_⟩
      rintro (⟨-, h⟩ | ⟨hfalse, -⟩)
      · exact h
      · cases hfalse
  | false =>
      have harith : A'.findArithmeticSites C.toConfig (P.cloneBody C.toConfig).func = [] :=
        SiteAnalyses.findArithmeticSites_replaceReads hP.func
      rw [if_neg Bool.false_ne_true, if_neg Bool.false_ne_true, harith, List.map_nil, eq_comm,
        List.map_eq_nil_iff, SiteAnalyses.findArithmeticSites_eq_nil]
      refine ⟨fun h => Or.inr ⟨rfl, h⟩, ?_⟩
      rintro (⟨htrue, -⟩ | ⟨-, h⟩)
      · cases htrue
      · exact h

/-! ## A gather and a contiguous stream -/

/-- The analyses of the example kernels, which have no `cp.async`. -/
def oneLoopWeave (ptrs : List Operand) : WeaveAnalyses :=
  { SiteAnalyses.oneLoopAnalyses ptrs with isAsyncCopy := fun _ => false }

theorem oneLoopWeave_inner (ptrs : List Operand) : (oneLoopWeave ptrs).Inner = [.mk 1 [1] []] :=
  SiteAnalyses.oneLoop_inner

theorem oneLoopWeave_seesClone (ptrs : List Operand) (P : Code) (C : Config) :
    (oneLoopWeave ptrs).SeesClone (oneLoopWeave ptrs) P C where
  loopInfo := rfl
  isGetElementPtr := fun _ _ => rfl
  isUnaryOperator := fun _ _ => rfl
  isAsyncCopy := fun _ _ => rfl

theorem oneLoop_code_wellFormed {entry loop exit : List Instr} {next arity : ℕ} {name : String}
    (hcheck : (SiteAnalyses.oneLoop entry loop exit next).Checks)
    (hvalid : (SiteAnalyses.oneLoop entry loop exit next).Valid)
    (hargs : ∀ I ∈ (SiteAnalyses.oneLoop entry loop exit next).instructions,
      (∀ x ∈ I.args, x.ArgBelow arity) ∧ ∀ p ∈ I.incoming, p.2.ArgBelow arity) :
    Code.WellFormed ⟨name, SiteAnalyses.oneLoop entry loop exit next, arity⟩ where
  func := SiteAnalyses.oneLoop_wellFormed hcheck
  valid := hvalid
  args_below := by
    intro b I hI
    have hb := (SiteAnalyses.oneLoop_wellFormed hcheck).body_mem b I hI
    exact hargs I (List.mem_flatMap.2 ⟨b, hb, hI⟩)

/-- `for (i = 0; i + 1 < n; i++) acc += kv[b + page[b] + i]`, with `b` the block index. -/
def pagedGather : Code where
  name := "paged"
  func := SiteAnalyses.oneLoop
    [{ id := 0, op := .call (some .other) (some "llvm.nvvm.read.ptx.sreg.ctaid.x"), ty := .int 32 },
     { id := 1, op := .other, ty := .other, args := [.arg 0, .inst 0] },
     { id := 2, op := .load, ty := .int 32, args := [.inst 1] },
     { id := 3, op := .binaryOperator, ty := .int 32, args := [.inst 0, .inst 2] },
     { id := 4, op := .terminator, ty := .other }]
    [{ id := 5, op := .phi, ty := .int 32, incoming := [(0, .otherConst 0), (1, .inst 10)] },
     { id := 6, op := .phi, ty := .floatingPoint, incoming := [(0, .fpZero), (1, .inst 9)] },
     { id := 7, op := .other, ty := .other, args := [.arg 1, .inst 3, .inst 5] },
     { id := 8, op := .load, ty := .floatingPoint, args := [.inst 7] },
     { id := 9, op := .binaryOperator, ty := .floatingPoint, args := [.inst 6, .inst 8] },
     { id := 10, op := .binaryOperator, ty := .int 32, args := [.inst 5, .otherConst 1] },
     { id := 11, op := .icmp true, ty := .int 1, args := [.inst 10, .arg 2] },
     { id := 12, op := .terminator, ty := .other, args := [.inst 11] }]
    [{ id := 13, op := .terminator, ty := .other, args := [.inst 9] }]
    14
  arity := 3

/-- The gather is a site of the kernel and of the clone. -/
theorem sites_cloneBody_pagedGather :
    (oneLoopWeave [.inst 7]).notedSites {} pagedGather.func = [(⟨8, 4⟩, .indexBased)] ∧
      (oneLoopWeave [.inst 7]).notedSites {} (pagedGather.cloneBody {}).func
        = (oneLoopWeave [.inst 7]).notedSites {} pagedGather.func ∧
      (oneLoopWeave [.inst 7]).levers {} bakedSlots (pagedGather.cloneBody {}).func
        = (oneLoopWeave [.inst 7]).levers {} bakedSlots pagedGather.func := by
  refine ⟨?_, (sites_cloneBody_iff (oneLoopWeave [.inst 7]) (oneLoopWeave [.inst 7]) {} bakedSlots
    pagedGather ?_ (oneLoopWeave_seesClone ..) ?_).2 (Or.inl ⟨?_, ?_⟩)⟩
  · rw [SiteAnalyses.notedSites, SiteAnalyses.findIndexedSites, SiteAnalyses.findArithmeticSites,
      oneLoopWeave_inner]
    decide +kernel
  · exact oneLoop_code_wellFormed (by decide +kernel)
      ((SiteAnalyses.oneLoop_wellFormed (by decide +kernel)).valid_of_check (by decide +kernel))
      (by decide +kernel)
  · rw [oneLoopWeave_inner]
    decide
  · rw [SiteAnalyses.sawLoadedIndex, SiteAnalyses.innerInstrs, oneLoopWeave_inner]
    decide +kernel
  · rw [SiteAnalyses.firstPass, SiteAnalyses.innerInstrs, oneLoopWeave_inner]
    decide +kernel

/-- The two contiguous streams, as the code of a kernel. -/
def twoStreamsCode : Code where
  name := "contiguous"
  func := SiteAnalyses.twoStreams
  arity := 6

/-- **A contiguous stream loses policy and shed in a work-queue build.** -/
theorem twoStreams_clone_not_woven :
    twoStreamsCode.WellFormed ∧
      (oneLoopWeave [.inst 5, .inst 8]).SeesClone (oneLoopWeave [.inst 5, .inst 8]) twoStreamsCode {} ∧
      (oneLoopWeave [.inst 5, .inst 8]).notedSites {} twoStreamsCode.func
        = [(⟨6, 4⟩, .arithmetic)] ∧
      (oneLoopWeave [.inst 5, .inst 8]).levers {} bakedSlots twoStreamsCode.func = ⟨true, true⟩ ∧
      (oneLoopWeave [.inst 5, .inst 8]).notedSites {} (twoStreamsCode.cloneBody {}).func = [] ∧
      (oneLoopWeave [.inst 5, .inst 8]).levers {} bakedSlots (twoStreamsCode.cloneBody {}).func
        = ⟨false, false⟩ := by
  refine ⟨?_, oneLoopWeave_seesClone .., ?_, ?_, ?_, ?_⟩
  · exact oneLoop_code_wellFormed (by decide +kernel)
      ((SiteAnalyses.oneLoop_wellFormed (by decide +kernel)).valid_of_check (by decide +kernel))
      (by decide +kernel)
  · rw [SiteAnalyses.notedSites, SiteAnalyses.findIndexedSites, SiteAnalyses.findArithmeticSites,
      oneLoopWeave_inner]
    decide +kernel
  · rw [levers, SiteAnalyses.findPrefetchSites, SiteAnalyses.findIndexedSites,
      SiteAnalyses.findArithmeticSites, oneLoopWeave_inner]
    decide +kernel
  · rw [SiteAnalyses.notedSites, SiteAnalyses.findIndexedSites, SiteAnalyses.findArithmeticSites,
      oneLoopWeave_inner]
    decide +kernel
  · rw [levers, SiteAnalyses.findPrefetchSites, SiteAnalyses.findIndexedSites,
      SiteAnalyses.findArithmeticSites, oneLoopWeave_inner]
    decide +kernel

end WeaveAnalyses

end SchedPass
