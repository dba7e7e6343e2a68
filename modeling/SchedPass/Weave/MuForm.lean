import SchedPass.Weave.ShedSites

set_option autoImplicit false

/-! # The two forms of a stream (`hasLoadedIndex`, `findPrefetchSites`)

`findPrefetchSites` notes with each site whether its address is index-based or arithmetic, and means
the second never to be a fallback of the first: a gather that gives no site is to be skipped. It tells
the two apart by a search from the address for a load. What the search finds, the address depends on
(`dependsOn_of_searchFinds`); what the address depends on, the search finds within its reach
(`searchFinds_of_cone`). Beyond it, through any other instruction or behind 256 steps, a gather is
taken for an arithmetic stream (`arithmetic_not_fallback_iff`). -/

namespace SchedPass

/-- The form of an address, as the notes of `findPrefetchSites` have it. -/
inductive MuForm
  | indexBased
  | arithmetic
  deriving DecidableEq, Repr

/-! ## What a value depends on -/

namespace Func

variable (F : Func)

def isLoad (x : Operand) : Bool :=
  match F.definedBy x with
  | none => false
  | some I => I.op == .load

/-- The operands of the instruction that defines a value. -/
def operandsOf (x : Operand) : List Operand :=
  match F.definedBy x with
  | none => []
  | some I => I.args ++ I.incoming.map Prod.snd

/-- The value is computed from `y`, by whatever instructions. -/
def DependsOn (x y : Operand) : Prop :=
  Relation.ReflTransGen (fun x y => y ∈ F.operandsOf x) x y

/-- The address of the load depends on the result of another load. -/
def LoadedAddress (Ld : Instr) : Prop :=
  ∃ v ≠ Ld.id, F.isLoad (.inst v) = true ∧ F.DependsOn Ld.getPointerOperand (.inst v)

/-- A value and all operands of the function. -/
def operandsFrom (V : Operand) : Finset Operand :=
  insert V (F.instructions.flatMap fun I => I.args ++ I.incoming.map Prod.snd).toFinset

variable {F}

theorem mem_instructions_of_definedBy {x : Operand} {I : Instr} (h : F.definedBy x = some I) :
    I ∈ F.instructions := by
  cases x with
  | inst v => exact List.mem_of_find?_eq_some h
  | _ => cases h

theorem mem_operandsFrom {V x y : Operand} (hy : y ∈ F.operandsOf x) : y ∈ F.operandsFrom V := by
  unfold operandsOf at hy
  cases hI : F.definedBy x with
  | none =>
      rw [hI] at hy
      cases hy
  | some I =>
      rw [hI] at hy
      refine Finset.mem_insert_of_mem (List.mem_toFinset.2 (List.mem_flatMap.2 ⟨I, ?_, hy⟩))
      exact mem_instructions_of_definedBy hI

end Func

namespace SiteAnalyses

variable (A : SiteAnalyses) (C : Config) (F : Func)

/-! ## The search for a loaded index -/

/-- The operands that `hasLoadedIndex` goes on to. -/
def indexNext (x : Operand) : List Operand :=
  match F.definedBy x with
  | none => []
  | some I =>
      if A.isGEP I then I.args
      else
        match I.op with
        | .phi => I.incoming.map Prod.snd
        | .binaryOperator | .cast _ | .select => I.args
        | .other => if A.isUnaryOperator I then I.args else []
        | _ => []

/-- The search, without its bound, would get to a load in at most 256 steps. -/
def SearchFinds (V : Operand) : Prop :=
  ∃ k ≤ 256, ∃ x, WalkStops (A.indexNext F) F.isLoad x k [V] []

variable {A C F}

theorem hasLoadedIndex_eq (V : Operand) :
    A.hasLoadedIndex F V = (walk (A.indexNext F) F.isLoad 256 [V] []).isSome := rfl

theorem hasLoadedIndex_iff {V : Operand} :
    A.hasLoadedIndex F V = true ↔ A.SearchFinds F V := by
  rw [hasLoadedIndex_eq, Option.isSome_iff_exists]
  simp only [walk_eq_some_iff]
  constructor
  · rintro ⟨x, k, hk, h⟩
    exact ⟨k, hk, x, h⟩
  · rintro ⟨k, hk, x, h⟩
    exact ⟨x, k, hk, h⟩

theorem indexNext_subset (x : Operand) : A.indexNext F x ⊆ F.operandsOf x := by
  unfold indexNext Func.operandsOf
  cases F.definedBy x with
  | none => exact List.Subset.refl _
  | some I =>
      have hargs : I.args ⊆ I.args ++ I.incoming.map Prod.snd := List.subset_append_left ..
      show (if A.isGEP I then I.args else _) ⊆ I.args ++ I.incoming.map Prod.snd
      by_cases hgep : A.isGEP I = true
      · rwa [if_pos hgep]
      · rw [if_neg hgep]
        split
        · exact List.subset_append_right ..
        · exact hargs
        · exact hargs
        · exact hargs
        · by_cases hunary : A.isUnaryOperator I = true
          · rwa [if_pos hunary]
          · rw [if_neg hunary]
            exact List.nil_subset _
        · exact List.nil_subset _

/-- **What the search finds, the value depends on.** -/
theorem dependsOn_of_searchFinds {V : Operand} (h : A.SearchFinds F V) :
    ∃ x, F.isLoad x = true ∧ F.DependsOn V x := by
  obtain ⟨k, -, x, hstops⟩ := h
  refine ⟨x, hstops.found_eq_true, ?_⟩
  exact Relation.ReflTransGen.mono (fun x _ hy => indexNext_subset x hy) _ _ hstops.reachable

/-- Without its bound, the search gets to a load if and only if its steps lead to one. -/
theorem exists_walkStops_indexNext {V : Operand} :
    (∃ k x, WalkStops (A.indexNext F) F.isLoad x k [V] [])
      ↔ ∃ x, F.isLoad x = true ∧ Relation.ReflTransGen (fun x y => y ∈ A.indexNext F x) V x :=
  exists_walkStops_iff (S := F.operandsFrom V)
    (fun x _ _ hy => Func.mem_operandsFrom (indexNext_subset x hy)) (Finset.mem_insert_self ..)

/-- A chain of operands is one of the search up to its first load, where the search goes on to all
    operands. -/
theorem exists_isLoad_of_dependsOn {S : Finset Operand}
    (hS : ∀ x ∈ S, ∀ y ∈ A.indexNext F x, y ∈ S)
    (hnext : ∀ x ∈ S, F.isLoad x = false → A.indexNext F x = F.operandsOf x) {V y : Operand}
    (hV : V ∈ S) (hy : F.isLoad y = true) (h : F.DependsOn V y) :
    ∃ x, F.isLoad x = true ∧ Relation.ReflTransGen (fun x y => y ∈ A.indexNext F x) V x := by
  induction h using Relation.ReflTransGen.head_induction_on with
  | refl => exact ⟨y, hy, .refl⟩
  | @head V w hw _ ih =>
      cases hload : F.isLoad V with
      | true => exact ⟨V, hload, .refl⟩
      | false =>
          have hstep : w ∈ A.indexNext F V := by rwa [hnext V hV hload]
          obtain ⟨x, hx, hreach⟩ := ih (hS V hV w hstep)
          exact ⟨x, hx, hreach.head hstep⟩

/-- **The search finds a load that the value depends on** where all values on the way are among
    those it goes through, with fewer than 256 operands in all. -/
theorem searchFinds_of_cone {S : Finset Operand} (hS : ∀ x ∈ S, ∀ y ∈ A.indexNext F x, y ∈ S)
    (hnext : ∀ x ∈ S, F.isLoad x = false → A.indexNext F x = F.operandsOf x)
    (hsize : ∑ x ∈ S, (A.indexNext F x).length < 256) {V y : Operand} (hV : V ∈ S)
    (hy : F.isLoad y = true) (h : F.DependsOn V y) : A.SearchFinds F V := by
  obtain ⟨x, hx, hreach⟩ := exists_isLoad_of_dependsOn hS hnext hV hy h
  obtain ⟨k, hk, hstops⟩ := walkStops_of_reachable hS hV hx hreach
  exact ⟨k, by omega, hstops⟩

/-! ## The sites with their forms -/

/-- `findPrefetchSites`, with the form that it notes for each site. -/
def notedSites (A : SiteAnalyses) (C : Config) (F : Func) : List (PrefetchSite × MuForm) :=
  let (Sites, SawLoadedIndex) := A.findIndexedSites F
  if !Sites.isEmpty then Sites.map fun S => (S, .indexBased)
  else if SawLoadedIndex then []
  else (A.findArithmeticSites C F).map fun S => (S, .arithmetic)

theorem map_fst_notedSites :
    (A.notedSites C F).map Prod.fst = A.findPrefetchSites C F := by
  unfold notedSites findPrefetchSites
  obtain ⟨Sites, SawLoadedIndex⟩ := A.findIndexedSites F
  have hfst : ∀ (form : MuForm) (l : List PrefetchSite), (l.map fun S => (S, form)).map Prod.fst = l := by
    intro form l
    rw [List.map_map]
    exact List.map_id l
  dsimp only
  split_ifs
  · exact hfst _ _
  · rfl
  · exact hfst _ _

theorem sawLoadedIndex_of_findIndexedSites (h : (A.findIndexedSites F).1 ≠ []) :
    A.sawLoadedIndex F = true := by
  obtain ⟨S, hS⟩ := List.exists_mem_of_ne_nil _ h
  rw [findIndexedSites_fst] at hS
  have hload := List.mem_map_of_mem (f := PrefetchSite.Load) (List.mem_of_mem_take hS)
  rw [map_load_filterMap_indexedSite] at hload
  exact sawLoadedIndex_of_mem hload

/-- **The sites of the first pass, or those of the second where no address depends on a loaded
    value.** -/
theorem notedSites_eq :
    A.notedSites C F
      = if A.sawLoadedIndex F then (A.findIndexedSites F).1.map fun S => (S, .indexBased)
        else (A.findArithmeticSites C F).map fun S => (S, .arithmetic) := by
  unfold notedSites
  cases hsites : (A.findIndexedSites F).1 with
  | cons S Sites =>
      have hsaw := sawLoadedIndex_of_findIndexedSites (hsites ▸ List.cons_ne_nil S Sites)
      simp [hsites, hsaw]
  | nil =>
      have hfilter : (A.innerInstrs F).filterMap (A.indexedSite F) = [] := by
        rw [findIndexedSites_fst] at hsites
        simpa using hsites
      have hsaw := findIndexedSites_snd hfilter
      simp [hsites, hsaw]

theorem findArithmeticSites_eq_nil :
    A.findArithmeticSites C F = [] ↔ A.arithmeticStreams C F = [] := by
  have hmap := congrArg List.length (map_load_findArithmeticSites (A := A) (C := C) (F := F))
  rw [List.length_map, List.length_take] at hmap
  rw [← List.length_eq_zero_iff, ← List.length_eq_zero_iff, hmap]
  omega

/-- Sites of the second form are found where no address is seen to depend on a loaded value, and some
    loop has an arithmetic stream. -/
theorem notedSites_ne_arithmetic_iff :
    (∀ S ∈ A.notedSites C F, S.2 ≠ .arithmetic)
      ↔ A.sawLoadedIndex F = true ∨ A.arithmeticStreams C F = [] := by
  rw [notedSites_eq, ← findArithmeticSites_eq_nil]
  cases A.sawLoadedIndex F with
  | true => simp
  | false =>
      rw [if_neg Bool.false_ne_true, or_iff_right Bool.false_ne_true]
      constructor
      · intro h
        refine List.eq_nil_iff_forall_not_mem.2 fun S hS => ?_
        exact h _ (List.mem_map_of_mem hS) rfl
      · intro hnil
        rw [hnil]
        exact fun S hS => absurd hS List.not_mem_nil

theorem sawLoadedIndex_iff : A.sawLoadedIndex F = true
    ↔ ∃ p ∈ A.innerInstrs F, p.2.op = .load ∧ A.SearchFinds F p.2.getPointerOperand := by
  simp only [sawLoadedIndex, isIndexed, List.any_eq_true, Bool.and_eq_true, beq_iff_eq,
    hasLoadedIndex_iff]

theorem arithmeticStreams_eq_nil_iff : A.arithmeticStreams C F = []
    ↔ ∀ p ∈ A.innerInstrs F, A.isArithmeticStream C F p.1 p.2 = false := by
  simp only [arithmeticStreams, List.filterMap_eq_nil_iff, Option.map_eq_none_iff,
    List.find?_eq_none, Bool.not_eq_true, Prod.forall, mem_innerInstrs]
  exact ⟨fun h L I hI => h L hI.1 I hI.2, fun h L hL I hI => h L I ⟨hL, hI⟩⟩

/-- **When arithmetic is no fallback.** In a function with a load in an innermost loop whose address
    depends on another load, no site is arithmetic if and only if the search finds a load from the
    address of some load in an innermost loop, or no load in one is an arithmetic stream. -/
theorem arithmetic_not_fallback_iff (A : SiteAnalyses) (C : Config) (F : Func) :
    ((∃ p ∈ A.innerInstrs F, p.2.op = .load ∧ F.LoadedAddress p.2) →
        ∀ S ∈ A.notedSites C F, S.2 ≠ .arithmetic) ↔
      ((∃ p ∈ A.innerInstrs F, p.2.op = .load ∧ F.LoadedAddress p.2) →
        (∃ p ∈ A.innerInstrs F, p.2.op = .load ∧ A.SearchFinds F p.2.getPointerOperand) ∨
          ∀ p ∈ A.innerInstrs F, A.isArithmeticStream C F p.1 p.2 = false) := by
  refine imp_congr_right fun _ => ?_
  rw [notedSites_ne_arithmetic_iff, sawLoadedIndex_iff, arithmeticStreams_eq_nil_iff]

/-- **Within the search's reach, arithmetic is no fallback.** -/
theorem not_fallback_of_cone {p : Loop × Instr} (hp : p ∈ A.innerInstrs F) (hload : p.2.op = .load)
    (hdep : F.LoadedAddress p.2) {S : Finset Operand}
    (hS : ∀ x ∈ S, ∀ y ∈ A.indexNext F x, y ∈ S)
    (hnext : ∀ x ∈ S, F.isLoad x = false → A.indexNext F x = F.operandsOf x)
    (hsize : ∑ x ∈ S, (A.indexNext F x).length < 256) (hV : p.2.getPointerOperand ∈ S) :
    ∀ S ∈ A.notedSites C F, S.2 ≠ .arithmetic := by
  obtain ⟨v, -, hv, hdep⟩ := hdep
  have hfinds := searchFinds_of_cone hS hnext hsize hV hv hdep
  exact notedSites_ne_arithmetic_iff.2 (Or.inl (sawLoadedIndex_iff.2 ⟨p, hp, hload, hfinds⟩))

/-! ## Gathers that the search does not see -/

/-- A gather whose load becomes an arithmetic site. -/
structure Rebound (A : SiteAnalyses) (C : Config) (F : Func) : Prop where
  wellFormed : F.WellFormed
  valid : F.Valid
  gather : ∃ p ∈ A.innerInstrs F, p.2.op = .load ∧ F.LoadedAddress p.2
  arithmetic : ∃ S ∈ A.notedSites C F, S.2 = .arithmetic

/-- `for (i = 0; i + 1 < n; i++) acc += kv[b + min(page[b], last) + i]`, with `b` the block index. Value
    2 is the page, 3 the clamped one, 9 the gather. -/
def clampedGather : Func :=
  oneLoop
    [{ id := 0, op := .call (some .other) (some "llvm.nvvm.read.ptx.sreg.ctaid.x"), ty := .int 32 },
     { id := 1, op := .other, ty := .other, args := [.arg 0, .inst 0] },
     { id := 2, op := .load, ty := .int 32, args := [.inst 1] },
     { id := 3, op := .call (some .other) (some "llvm.umin.i32"), ty := .int 32,
       args := [.inst 2, .arg 2] },
     { id := 4, op := .binaryOperator, ty := .int 32, args := [.inst 0, .inst 3] },
     { id := 5, op := .terminator, ty := .other }]
    [{ id := 6, op := .phi, ty := .int 32, incoming := [(0, .otherConst 0), (1, .inst 11)] },
     { id := 7, op := .phi, ty := .floatingPoint, incoming := [(0, .fpZero), (1, .inst 10)] },
     { id := 8, op := .other, ty := .other, args := [.arg 1, .inst 4, .inst 6] },
     { id := 9, op := .load, ty := .floatingPoint, args := [.inst 8] },
     { id := 10, op := .binaryOperator, ty := .floatingPoint, args := [.inst 7, .inst 9] },
     { id := 11, op := .binaryOperator, ty := .int 32, args := [.inst 6, .otherConst 1] },
     { id := 12, op := .icmp true, ty := .int 1, args := [.inst 11, .arg 3] },
     { id := 13, op := .terminator, ty := .other, args := [.inst 12] }]
    [{ id := 14, op := .terminator, ty := .other, args := [.inst 10] }]
    15

/-- `x += x`, 128 times, from the third argument. -/
def doublings : List Instr :=
  (List.range 128).map fun i =>
    let x : Operand := if i = 0 then .arg 2 else .inst (i + 4)
    { id := i + 5, op := .binaryOperator, ty := .int 32, args := [x, x] }

/-- The same gather with `page[b] + 2 ^ 128 * last` for the clamped page: value 133 is the row, 139 the
    gather. -/
def deepGather : Func :=
  oneLoop
    ([{ id := 0, op := .call (some .other) (some "llvm.nvvm.read.ptx.sreg.ctaid.x"), ty := .int 32 },
      { id := 1, op := .other, ty := .other, args := [.arg 0, .inst 0] },
      { id := 2, op := .load, ty := .int 32, args := [.inst 1] }] ++ doublings ++
     [{ id := 133, op := .binaryOperator, ty := .int 32, args := [.inst 2, .inst 132] },
      { id := 134, op := .binaryOperator, ty := .int 32, args := [.inst 133, .inst 0] },
      { id := 135, op := .terminator, ty := .other }])
    [{ id := 136, op := .phi, ty := .int 32, incoming := [(0, .otherConst 0), (1, .inst 141)] },
     { id := 137, op := .phi, ty := .floatingPoint, incoming := [(0, .fpZero), (1, .inst 140)] },
     { id := 138, op := .other, ty := .other, args := [.arg 1, .inst 134, .inst 136] },
     { id := 139, op := .load, ty := .floatingPoint, args := [.inst 138] },
     { id := 140, op := .binaryOperator, ty := .floatingPoint, args := [.inst 137, .inst 139] },
     { id := 141, op := .binaryOperator, ty := .int 32, args := [.inst 136, .otherConst 1] },
     { id := 142, op := .icmp true, ty := .int 1, args := [.inst 141, .arg 3] },
     { id := 143, op := .terminator, ty := .other, args := [.inst 142] }]
    [{ id := 144, op := .terminator, ty := .other, args := [.inst 140] }]
    145

theorem mem_innerInstrs_oneLoop {entry loop exit : List Instr} {next : ℕ} {ptrs : List Operand}
    {I : Instr} (hI : I ∈ loop) :
    (.mk 1 [1] [], I) ∈ (oneLoopAnalyses ptrs).innerInstrs (oneLoop entry loop exit next) := by
  rw [mem_innerInstrs, oneLoop_inner]
  exact ⟨List.mem_singleton_self _, by simpa [instrs, Loop.blocks, oneLoop] using hI⟩

theorem clampedGather_wellFormed : clampedGather.WellFormed := oneLoop_wellFormed (by decide +kernel)

theorem clampedGather_rebound : Rebound (oneLoopAnalyses [.inst 8]) {} clampedGather where
  wellFormed := clampedGather_wellFormed
  valid := clampedGather_wellFormed.valid_of_check (by decide +kernel)
  gather := by
    let Ld : Instr := { id := 9, op := .load, ty := .floatingPoint, args := [.inst 8] }
    have hdep : clampedGather.DependsOn (.inst 8) (.inst 2) :=
      List.relationReflTransGen_of_exists_isChain_cons [.inst 4, .inst 3, .inst 2]
        (by decide +kernel) rfl
    exact ⟨_, mem_innerInstrs_oneLoop (I := Ld) (by decide), rfl, 2, by decide, by decide +kernel, hdep⟩
  arithmetic := by
    refine ⟨(⟨9, 4⟩, .arithmetic), ?_, rfl⟩
    rw [notedSites, findIndexedSites, findArithmeticSites, oneLoop_inner]
    decide +kernel

theorem deepGather_wellFormed : deepGather.WellFormed := oneLoop_wellFormed (by decide +kernel)

theorem deepGather_rebound : Rebound (oneLoopAnalyses [.inst 138]) {} deepGather where
  wellFormed := deepGather_wellFormed
  valid := deepGather_wellFormed.valid_of_check (by decide +kernel)
  gather := by
    let Ld : Instr := { id := 139, op := .load, ty := .floatingPoint, args := [.inst 138] }
    have hdep : deepGather.DependsOn (.inst 138) (.inst 2) :=
      List.relationReflTransGen_of_exists_isChain_cons [.inst 134, .inst 133, .inst 2]
        (by decide +kernel) rfl
    exact ⟨_, mem_innerInstrs_oneLoop (I := Ld) (by decide), rfl, 2, by decide, by decide +kernel, hdep⟩
  arithmetic := by
    refine ⟨(⟨139, 4⟩, .arithmetic), ?_, rfl⟩
    rw [notedSites, findIndexedSites, findArithmeticSites, oneLoop_inner]
    decide +kernel

/-- **A gather is taken for an arithmetic stream** when its index passes through a call, and when it is
    behind more operands than the search has steps. -/
theorem gathers_rebound :
    Rebound (oneLoopAnalyses [.inst 8]) {} clampedGather ∧
      Rebound (oneLoopAnalyses [.inst 138]) {} deepGather :=
  ⟨clampedGather_rebound, deepGather_rebound⟩

end SiteAnalyses

end SchedPass
