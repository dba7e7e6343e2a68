import SchedPass.Lib.FoldUntil
import SchedPass.Weave.Exec
import SchedPass.Weave.Shed

set_option autoImplicit false

/-! # The stream loads of a kernel (`findPrefetchSites`)

A stream load stands in an innermost loop, at an address that advances by a constant each iteration.
Two forms are told apart. Where the address depends on a loaded value, as through a block table, the
first four such loads of all loops are sites. Where no address of any loop depends on a loaded value,
the first load of each loop whose address derives from the slot's `ctaid` is one, in up to two loops.
`mem_findPrefetchSites` says which loads these are in terms of their ranks. -/

namespace SchedPass

/-- A loop of `LoopInfo`. -/
inductive Loop
  | mk (header : ℕ) (blocks : List ℕ) (subLoops : List Loop)

namespace Loop

def getHeader : Loop → ℕ
  | mk header _ _ => header

def blocks : Loop → List ℕ
  | mk _ blocks _ => blocks

def getSubLoops : Loop → List Loop
  | mk _ _ subLoops => subLoops

theorem sum_sizeOf_getSubLoops (L : Loop) : (L.getSubLoops.map sizeOf).sum < sizeOf L := by
  have hlist : ∀ l : List Loop, (l.map sizeOf).sum < sizeOf l := by
    intro l
    induction l with
    | nil => simp
    | cons L l ih =>
        simp only [List.map_cons, List.sum_cons, List.cons.sizeOf_spec]
        omega
  obtain ⟨header, blocks, subLoops⟩ := L
  have := hlist subLoops
  rw [mk.sizeOf_spec, getSubLoops]
  omega

/-- Pop a loop and push its sub-loops; a loop without any is innermost. -/
def innermost : List Loop → List Loop
  | [] => []
  | L :: Work =>
      if L.getSubLoops.isEmpty then L :: innermost Work
      else innermost (L.getSubLoops.reverse ++ Work)
termination_by Work => (Work.map sizeOf).sum
decreasing_by
  all_goals
    have := sum_sizeOf_getSubLoops L
    simp only [List.map_append, List.map_reverse, List.sum_append, List.sum_reverse, List.map_cons,
      List.sum_cons]
    omega

end Loop

/-- A `SCEVAddRecExpr`: the header of its loop, and its step where that is constant. -/
structure AddRec where
  loop : ℕ
  step : Option ℤ

/-- What finding the sites asks of LLVM besides: the loops of the function, the kind of an instruction
    that `Opcode` does not tell apart, and the scalar evolution of an address. -/
structure SiteAnalyses extends Analyses where
  loopInfo : List Loop
  isGetElementPtr : Instr → Bool
  isUnaryOperator : Instr → Bool
  getPointerAddressSpace : Operand → ℕ
  isSCEVable : Operand → Bool
  getAddRec : Operand → Option AddRec

structure PrefetchSite where
  Load : ℕ
  StepBytes : ℤ
  deriving DecidableEq, Repr

/-- The instruction that an operand names. -/
def Func.definedBy (F : Func) : Operand → Option Instr
  | .inst v => F.instr v
  | _ => none

def Instr.getPointerOperand (Ld : Instr) : Operand := Ld.args.headD (.otherConst 0)

namespace SiteAnalyses

variable (A : SiteAnalyses) (C : Config) (F : Func)

/-! ## Where an address comes from -/

def isGEP (I : Instr) : Bool := I.op == .other && A.isGetElementPtr I

/-- Does the address depend on a loaded value? -/
def hasLoadedIndex (V : Operand) : Bool :=
  (walk
    (fun Cur =>
      match F.definedBy Cur with
      | none => []
      | some I =>
          if A.isGEP I then I.args
          else
            match I.op with
            | .phi => I.incoming.map Prod.snd
            | .binaryOperator | .cast _ | .select => I.args
            | .other => if A.isUnaryOperator I then I.args else []
            | _ => [])
    (fun Cur =>
      match F.definedBy Cur with
      | none => false
      | some I => I.op == .load)
    256 [V] []).isSome

/-- Does the address derive from the slot's `ctaid`, without a load in between? -/
def reachesSlotCtaid (V : Operand) : Bool :=
  (walk
    (fun Cur =>
      match F.definedBy Cur with
      | none => []
      | some I =>
          if A.isGEP I then I.args
          else
            match I.op with
            | .phi => I.incoming.map Prod.snd
            | .binaryOperator | .cast _ | .select => I.args
            | _ => [])
    (fun Cur =>
      match F.definedBy Cur with
      | none => false
      | some I => I.sreg == some (.ctaid (axisOf C.slotAxis)))
    256 [V] []).isSome

/-! ## The passes over the loops -/

def Inner : List Loop := A.loopInfo.flatMap fun Top => Loop.innermost [Top]

/-- The bytes by which the address advances in each iteration of the loop, 0 where that is unknown. -/
def strideOf (Ld : Instr) (L : Loop) : ℤ :=
  let P := Ld.getPointerOperand
  -- shared memory is never a stream
  if A.getPointerAddressSpace P = 3 then 0
  else if !A.isSCEVable P then 0
  else
    match A.getAddRec P with
    | none => 0
    | some AR => if AR.loop = L.getHeader then AR.step.getD 0 else 0

/-- Pass 1 at one instruction; the flag is `SawLoadedIndex`. -/
def visitIndexed (L : Loop) (st : List PrefetchSite × Bool) (I : Instr) : List PrefetchSite × Bool :=
  if I.op ≠ .load then st
  else if !A.hasLoadedIndex F I.getPointerOperand then st
  else
    let Bytes := A.strideOf I L
    if Bytes = 0 then (st.1, true) else (st.1 ++ [⟨I.id, Bytes⟩], true)

def findIndexedSites : List PrefetchSite × Bool :=
  let full := fun st : List PrefetchSite × Bool => decide (4 ≤ st.1.length)
  foldUntil full (fun st L => foldUntil full (fun st BB => foldUntil full (A.visitIndexed F L)
    (F.body BB) st) L.blocks st) A.Inner ([], false)

/-- A load that pass 2 takes. -/
def isArithmeticStream (L : Loop) (I : Instr) : Bool :=
  I.op == .load && decide (A.strideOf I L ≠ 0) && A.reachesSlotCtaid C F I.getPointerOperand

/-- Pass 2 at one loop. -/
def visitArithmetic (Sites : List PrefetchSite) (L : Loop) : List PrefetchSite :=
  match L.blocks.findSome? fun BB => (F.body BB).find? (A.isArithmeticStream C F L) with
  | none => Sites
  | some I => Sites ++ [⟨I.id, A.strideOf I L⟩]

def findArithmeticSites : List PrefetchSite :=
  foldUntil (fun Sites => decide (2 ≤ Sites.length)) (A.visitArithmetic C F) A.Inner []

def findPrefetchSites : List PrefetchSite :=
  let (Sites, SawLoadedIndex) := A.findIndexedSites F
  if !Sites.isEmpty then Sites
  -- a gather without a strided site is skipped, never taken for an arithmetic stream
  else if SawLoadedIndex then []
  else A.findArithmeticSites C F

/-! ## Which loads are sites -/

def instrs (L : Loop) : List Instr := L.blocks.flatMap F.body

/-- The instructions of all innermost loops, in the order of the passes. -/
def innerInstrs : List (Loop × Instr) := A.Inner.flatMap fun L => (instrs F L).map (Prod.mk L)

/-- A load whose address depends on a loaded value. -/
def isIndexed (I : Instr) : Bool := I.op == .load && A.hasLoadedIndex F I.getPointerOperand

/-- Every index-based stream. -/
def indexedStreams : List ℕ :=
  ((A.innerInstrs F).filter fun p => A.isIndexed F p.2 && decide (A.strideOf p.2 p.1 ≠ 0)).map
    fun p => p.2.id

def sawLoadedIndex : Bool := (A.innerInstrs F).any fun p => A.isIndexed F p.2

/-- The first arithmetic stream of every innermost loop that has one. -/
def arithmeticStreams : List ℕ :=
  A.Inner.filterMap fun L => ((instrs F L).find? (A.isArithmeticStream C F L)).map Instr.id

/-- Among the first four index-based streams; or the first arithmetic stream of its loop, with at most
    one loop with such a stream before it, where no address depends on a loaded value. -/
def Caught (Ld : ℕ) : Prop :=
  (Ld ∈ A.indexedStreams F ∧ (A.indexedStreams F).idxOf Ld < 4) ∨
    (A.sawLoadedIndex F = false ∧ Ld ∈ A.arithmeticStreams C F ∧
      (A.arithmeticStreams C F).idxOf Ld < 2)

instance (Ld : ℕ) : Decidable (A.Caught C F Ld) := by
  unfold Caught
  infer_instance

variable {A C F}

/-- Pass 1's site at an instruction, if it is one. -/
def indexedSite (A : SiteAnalyses) (F : Func) (p : Loop × Instr) : Option PrefetchSite :=
  if A.isIndexed F p.2 && decide (A.strideOf p.2 p.1 ≠ 0) then some ⟨p.2.id, A.strideOf p.2 p.1⟩
  else none

theorem visitIndexed_eq (L : Loop) (st : List PrefetchSite × Bool) (I : Instr) :
    A.visitIndexed F L st I
      = (st.1 ++ (A.indexedSite F (L, I)).toList, st.2 || A.isIndexed F I) := by
  unfold visitIndexed indexedSite isIndexed
  by_cases hload : I.op = .load
  · cases hidx : A.hasLoadedIndex F I.getPointerOperand with
    | false => simp [hload]
    | true => by_cases hstride : A.strideOf I L = 0 <;> simp [hload, hstride]
  · have hbeq : (I.op == .load) = false := beq_eq_false_iff_ne.2 hload
    simp [hload, hbeq]

/-- The nest of pass 1 is one loop. -/
theorem findIndexedSites_eq :
    A.findIndexedSites F
      = foldUntil (fun st => decide (4 ≤ st.1.length))
          (fun st p => (st.1 ++ (A.indexedSite F p).toList, st.2 || A.isIndexed F p.2))
          (A.innerInstrs F) ([], false) := by
  unfold findIndexedSites innerInstrs instrs
  simp only [foldUntil_flatMap, foldUntil_map, ← visitIndexed_eq]

theorem findIndexedSites_fst :
    (A.findIndexedSites F).1 = ((A.innerInstrs F).filterMap (A.indexedSite F)).take 4 := by
  have hfst : ∀ st : List PrefetchSite × Bool,
      (foldUntil (fun st => decide (4 ≤ st.1.length))
        (fun st p => (st.1 ++ (A.indexedSite F p).toList, st.2 || A.isIndexed F p.2))
        (A.innerInstrs F) st).1
      = foldUntil (fun Sites => decide (4 ≤ Sites.length))
          (fun Sites p => Sites ++ (A.indexedSite F p).toList) (A.innerInstrs F) st.1 := by
    intro st
    apply map_foldUntil Prod.fst
    · exact fun _ => rfl
    · exact fun _ _ => rfl
  rw [findIndexedSites_eq, hfst]
  exact foldUntil_collect _ _ (Nat.zero_le 4)

/-- Without a site, pass 1 has looked at every load. -/
theorem findIndexedSites_snd (h : (A.innerInstrs F).filterMap (A.indexedSite F) = []) :
    (A.findIndexedSites F).2 = A.sawLoadedIndex F := by
  have hnone := List.filterMap_eq_nil_iff.1 h
  have hfold : ∀ (l : List (Loop × Instr)) (st : List PrefetchSite × Bool),
      (l.foldl (fun st p => (st.1 ++ (A.indexedSite F p).toList, st.2 || A.isIndexed F p.2)) st).2
        = (st.2 || l.any fun p => A.isIndexed F p.2) := by
    intro l
    induction l with
    | nil => simp
    | cons p l ih =>
        intro st
        rw [List.foldl_cons, ih, List.any_cons, Bool.or_assoc]
  rw [findIndexedSites_eq, foldUntil_eq_foldl (I := fun st => st.1 = []), hfold]
  · rfl
  · intro st hst
    simp [hst]
  · intro st p hp hst
    simp [hst, hnone p hp]
  · rfl

theorem map_load_filterMap_indexedSite (l : List (Loop × Instr)) :
    (l.filterMap (A.indexedSite F)).map PrefetchSite.Load
      = (l.filter fun p => A.isIndexed F p.2 && decide (A.strideOf p.2 p.1 ≠ 0)).map
          fun p => p.2.id := by
  induction l with
  | nil => rfl
  | cons p l ih =>
      rw [List.filterMap_cons, List.filter_cons]
      cases hp : A.isIndexed F p.2 && decide (A.strideOf p.2 p.1 ≠ 0) with
      | false =>
          rw [indexedSite, hp]
          exact ih
      | true =>
          rw [indexedSite, hp]
          exact congrArg (p.2.id :: ·) ih

theorem find?_instrs (p : Instr → Bool) (L : Loop) :
    L.blocks.findSome? (fun BB => (F.body BB).find? p) = (instrs F L).find? p :=
  List.find?_flatMap.symm

theorem visitArithmetic_eq (Sites : List PrefetchSite) (L : Loop) :
    A.visitArithmetic C F Sites L
      = Sites ++ (((instrs F L).find? (A.isArithmeticStream C F L)).map fun I =>
          (⟨I.id, A.strideOf I L⟩ : PrefetchSite)).toList := by
  unfold visitArithmetic
  rw [find?_instrs]
  cases (instrs F L).find? (A.isArithmeticStream C F L) with
  | none => exact (List.append_nil Sites).symm
  | some I => rfl

theorem map_load_findArithmeticSites :
    (A.findArithmeticSites C F).map PrefetchSite.Load = (A.arithmeticStreams C F).take 2 := by
  have hstep : A.visitArithmetic C F = fun Sites L => Sites ++
      (((instrs F L).find? (A.isArithmeticStream C F L)).map fun I =>
        (⟨I.id, A.strideOf I L⟩ : PrefetchSite)).toList :=
    funext fun Sites => funext fun L => visitArithmetic_eq Sites L
  unfold findArithmeticSites arithmeticStreams
  rw [hstep, foldUntil_collect _ _ (Nat.zero_le 2), List.nil_append, List.map_take,
    List.map_filterMap]
  simp only [Option.map_map]
  rfl

/-- **The sites are the first four index-based streams; where no address depends on a loaded value,
    the first arithmetic streams of the first two loops that have one.** -/
theorem map_load_findPrefetchSites :
    (A.findPrefetchSites C F).map PrefetchSite.Load
      = if A.indexedStreams F ≠ [] then (A.indexedStreams F).take 4
        else if A.sawLoadedIndex F then [] else (A.arithmeticStreams C F).take 2 := by
  have hmap : ((A.findIndexedSites F).1).map PrefetchSite.Load = (A.indexedStreams F).take 4 := by
    rw [findIndexedSites_fst, List.map_take, map_load_filterMap_indexedSite]
    rfl
  unfold findPrefetchSites
  cases hsites : (A.findIndexedSites F).1 with
  | cons S Sites =>
      have hne : A.indexedStreams F ≠ [] := by
        intro hnil
        rw [hsites, hnil] at hmap
        cases hmap
      rw [hsites] at hmap
      simpa [hsites, hne] using hmap
  | nil =>
      have hnil : A.indexedStreams F = [] := by
        rw [hsites] at hmap
        simpa using hmap.symm
      have hfilter : (A.innerInstrs F).filterMap (A.indexedSite F) = [] := by
        rw [findIndexedSites_fst] at hsites
        simpa using hsites
      have hsaw := findIndexedSites_snd hfilter
      cases hs : A.sawLoadedIndex F with
      | true => simp [hsites, hsaw, hs, hnil]
      | false => simp [hsites, hsaw, hs, hnil, map_load_findArithmeticSites]

theorem sawLoadedIndex_of_mem {Ld : ℕ} (h : Ld ∈ A.indexedStreams F) :
    A.sawLoadedIndex F = true := by
  obtain ⟨p, hp, -⟩ := List.mem_map.1 h
  obtain ⟨hmem, hidx⟩ := List.mem_filter.1 hp
  exact List.any_eq_true.2 ⟨p, hmem, (Bool.and_eq_true_iff.1 hidx).1⟩

theorem mem_take_iff_and_idxOf_lt {Ld n : ℕ} {l : List ℕ} :
    Ld ∈ l.take n ↔ Ld ∈ l ∧ l.idxOf Ld < n := by
  constructor
  · intro h
    have hmem := List.mem_of_mem_take h
    exact ⟨hmem, (List.mem_take_iff_idxOf_lt hmem).1 h⟩
  · rintro ⟨hmem, hlt⟩
    exact (List.mem_take_iff_idxOf_lt hmem).2 hlt

/-- **Which loads are sites.** -/
theorem mem_findPrefetchSites {Ld : ℕ} :
    Ld ∈ (A.findPrefetchSites C F).map PrefetchSite.Load ↔ A.Caught C F Ld := by
  rw [map_load_findPrefetchSites, Caught]
  by_cases hnil : A.indexedStreams F = []
  · cases hs : A.sawLoadedIndex F with
    | true => simp [hnil]
    | false => simp [hnil, mem_take_iff_and_idxOf_lt]
  · obtain ⟨Ld', hLd'⟩ := List.exists_mem_of_ne_nil _ hnil
    simp [hnil, sawLoadedIndex_of_mem hLd', mem_take_iff_and_idxOf_lt]

/-! ## What a site is -/

/-- A load of an innermost loop, known by its header, whose address advances by a known stride. -/
def IsStream (A : SiteAnalyses) (F : Func) (L Ld : ℕ) : Prop :=
  ∃ K ∈ A.Inner, K.getHeader = L ∧
    ∃ I ∈ instrs F K, I.id = Ld ∧ I.op = .load ∧ A.strideOf I K ≠ 0

theorem mem_innerInstrs {p : Loop × Instr} :
    p ∈ A.innerInstrs F ↔ p.1 ∈ A.Inner ∧ p.2 ∈ instrs F p.1 := by
  obtain ⟨K, I⟩ := p
  simp [innerInstrs]

theorem Caught.isStream {Ld : ℕ} (h : A.Caught C F Ld) : ∃ L, A.IsStream F L Ld := by
  rcases h with ⟨hmem, -⟩ | ⟨-, hmem, -⟩
  · obtain ⟨p, hp, rfl⟩ := List.mem_map.1 hmem
    obtain ⟨hp, hstream⟩ := List.mem_filter.1 hp
    obtain ⟨hK, hI⟩ := mem_innerInstrs.1 hp
    rw [Bool.and_eq_true, isIndexed, Bool.and_eq_true, beq_iff_eq, decide_eq_true_eq] at hstream
    exact ⟨_, p.1, hK, rfl, p.2, hI, rfl, hstream.1.1, hstream.2⟩
  · obtain ⟨K, hK, hfind⟩ := List.mem_filterMap.1 hmem
    obtain ⟨I, hI, rfl⟩ := Option.map_eq_some_iff.1 hfind
    have hstream := List.find?_some hI
    rw [isArithmeticStream, Bool.and_eq_true, Bool.and_eq_true, beq_iff_eq,
      decide_eq_true_eq] at hstream
    exact ⟨_, K, hK, rfl, I, List.mem_of_find?_eq_some hI, rfl, hstream.1.1, hstream.1.2⟩

/-- No two instructions of the innermost loops have one id. -/
theorem nodup_innerInstrs (hF : F.WellFormed) (hblocks : (A.Inner.flatMap Loop.blocks).Nodup) :
    ((A.innerInstrs F).map fun p => p.2.id).Nodup := by
  have hids : (A.innerInstrs F).map (fun p => p.2.id)
      = (A.Inner.flatMap Loop.blocks).flatMap F.ids := by
    simp only [innerInstrs, instrs, List.map_flatMap, List.flatMap_assoc, List.map_map]
    rfl
  rw [hids, List.nodup_flatMap]
  refine ⟨fun b _ => hF.ids_nodup b, hblocks.imp fun {a b} hab v ha hb => ?_⟩
  exact hab (hF.ids_block a b v ha hb)

theorem arithmeticStreams_sublist :
    (A.arithmeticStreams C F).Sublist ((A.innerInstrs F).map fun p => p.2.id) := by
  unfold arithmeticStreams innerInstrs
  induction A.Inner with
  | nil => exact List.Sublist.refl _
  | cons K Ks ih =>
      rw [List.flatMap_cons, List.map_append, List.filterMap_cons, List.map_map]
      cases hfind : (instrs F K).find? (A.isArithmeticStream C F K) with
      | none => exact ih.trans (List.sublist_append_right ..)
      | some I =>
          have hI : [I.id].Sublist ((instrs F K).map ((fun p : Loop × Instr => p.2.id) ∘ Prod.mk K)) :=
            List.singleton_sublist.2 (List.mem_map.2 ⟨I, List.mem_of_find?_eq_some hfind, rfl⟩)
          exact hI.append ih

theorem nodup_findPrefetchSites (hF : F.WellFormed)
    (hblocks : (A.Inner.flatMap Loop.blocks).Nodup) :
    ((A.findPrefetchSites C F).map PrefetchSite.Load).Nodup := by
  have hnodup := nodup_innerInstrs hF hblocks
  rw [map_load_findPrefetchSites]
  split_ifs
  · exact ((List.filter_sublist.map _).nodup hnodup).sublist (List.take_sublist ..)
  · exact List.nodup_nil
  · exact (arithmeticStreams_sublist.nodup hnodup).sublist (List.take_sublist ..)

end SiteAnalyses

end SchedPass
