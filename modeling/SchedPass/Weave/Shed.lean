import SchedPass.Lib.Worklist
import SchedPass.Weave.Ir

set_option autoImplicit false

/-! # Weaving the shed masks

For every stream load `emitShedAll` takes the canonical induction variable of the load's loop, cast to
32 bits before the header's terminator where it is not 32 bits wide, and masks the softmax score that
the load feeds, or the loaded value itself: the compare and the select stand right behind what they
mask. The woven function is valid exactly when no mask stands in a header ahead of its cast counter
(`emitShedAll_valid_iff`); in a single-block loop with a 64-bit induction variable one does
(`streamLoop_keep_early`). -/

namespace SchedPass

/-- What the weaving asks of LLVM: its version, the loop of a block, known by its header, a loop's
    canonical induction variable, and the order in which a value's use list holds the users. -/
structure Analyses where
  versionMajor : ℕ
  getLoopFor : ℕ → Option ℕ
  getCanonicalInductionVariable : Func → ℕ → Option ℕ
  useOrder : ℕ → List Instr → List Instr

/-- A mask in a loop, known by its header: the value it stands behind, and what it puts in its place. -/
structure ShedMask where
  loop : ℕ
  target : ℕ
  dropped : Operand
  deriving DecidableEq, Repr

namespace Func

variable (F : Func)

def typeOf (v : ℕ) : Ty := ((F.instr v).map Instr.ty).getD .other

def getIntegerBitWidth (v : ℕ) : ℕ :=
  match F.typeOf v with
  | .int w => w
  | _ => 0

/-- The insertion point right behind an instruction, if another follows. -/
def getNextNode (v : ℕ) : Option (ℕ × ℕ) :=
  match F.parent v with
  | none => none
  | some b =>
      if (F.ids b).idxOf v + 1 < (F.body b).length then some (b, (F.ids b).idxOf v + 1) else none

/-- `keep = ctr < budget`. -/
def Keep (Ctr : ℕ) (Budget : Operand) : Instr :=
  ⟨F.next, .icmp true, .int 1, [.inst Ctr, Budget], []⟩

/-- `s' = keep ? s : dropped`. -/
def Sel (M : ℕ) (dropped : Operand) : Instr :=
  ⟨F.next + 1, .select, F.typeOf M, [.inst F.next, .inst M, dropped], []⟩

/-- `keep` and `s'` right behind `s`, and `s'` for the uses of `s` that it dominates. -/
def emitMask (M Ctr : ℕ) (Budget dropped : Operand) : Func :=
  match F.getNextNode M with
  | none => F
  | some (b, k) =>
      (F.insertAt b k [F.Keep Ctr Budget, F.Sel M dropped]).replaceUses M (F.Sel M dropped).id

/-- The induction variable's low 32 bits, or its zero extension. -/
def castIV (IV : ℕ) : Instr :=
  ⟨F.next, .cast (if 32 < F.getIntegerBitWidth IV then .trunc else .zext), .int 32, [.inst IV], []⟩

/-- The induction variable coerced to 32 bits; the cast stands before the header's terminator. -/
def coerceIV (L IV : ℕ) : ℕ × Func :=
  if F.getIntegerBitWidth IV = 32 then (IV, F)
  else ((F.castIV IV).id, F.insertAt L ((F.body L).length - 1) [F.castIV IV])

end Func

namespace Analyses

open Func

variable (A : Analyses) (F : Func)

/-! ## Detecting the score -/

def users (v : ℕ) : List Instr := A.useOrder v (F.instructions.filter fun I => I.uses v)

def contains (N s : String) : Bool := decide (s.toList <:+: N.toList)

def isExpCall (I : Instr) : Bool :=
  match I.op with
  | .call intrinsic callee =>
      (match intrinsic with
        | some .exp | some .exp2 => true
        | some .nvvmEx2Approx | some .nvvmEx2ApproxFtz => decide (22 ≤ A.versionMajor)
        | some .nvvmEx2ApproxF | some .nvvmEx2ApproxD => decide (A.versionMajor < 22)
        | _ => false) ||
      match callee with
        | none => false
        | some N => contains N "exp" && !contains N "frexp" && !contains N "ldexp"
  | _ => false

/-- The running max of an online softmax: a max call, or the ordered compare of an open-coded one. -/
def feedsMax (I : Instr) : Bool :=
  match I.op with
  | .call intrinsic callee =>
      intrinsic == some .maxnum || intrinsic == some .nvvmFmaxF ||
      match callee with
        | none => false
        | some N => (contains N "fmax" || contains N "__nv_fmax") && !contains N "fmaxnan"
  | .fcmp relational => relational
  | _ => false

def isArith (I : Instr) : Bool :=
  match I.op with
  | .binaryOperator | .cast _ | .select => true
  | _ => false

def isShuffle (I : Instr) : Bool :=
  match I.op with
  | .call _ (some N) => "llvm.nvvm.shfl".toList.isPrefixOf N.toList
  | _ => false

def reachesExp (v : ℕ) : Bool :=
  (walk (fun Cur => ((A.users F Cur).filter isArith).map Instr.id)
    (fun Cur => (A.users F Cur).any A.isExpCall) 64 [v] []).isSome

def findSoftmaxScore (Ld : ℕ) : Option ℕ :=
  walk (fun Cur => ((A.users F Cur).filter fun I => isArith I || isShuffle I).map Instr.id)
    (fun Cur => (A.users F Cur).any feedsMax && A.reachesExp F Cur) 256 [Ld] []

/-! ## The pass -/

def shedCounter (L : ℕ) : Option (ℕ × Func) :=
  match A.getCanonicalInductionVariable F L with
  | none => none
  | some IV => some (F.coerceIV L IV)

def emitShedScoreMask (Ld Ctr : ℕ) (Budget : Operand) : Func :=
  match A.findSoftmaxScore F Ld with
  | none => F
  | some Score => F.emitMask Score Ctr Budget .fpNegInf

/-- One site of `emitShedAll`. -/
def emitShedSite (Softmax : Bool) (Budget : Operand) (F : Func) (Ld : ℕ) : Func :=
  match (F.parent Ld).bind A.getLoopFor with
  | none => F
  | some L =>
      let Score := A.findSoftmaxScore F Ld
      -- in a softmax kernel a load without a score is left alone: the weight is masked
      if Softmax && Score.isNone then F
      else
        match A.shedCounter F L with
        | none => F
        | some (Ctr, F) =>
            -- the score is searched anew, behind the counter
            if Score.isSome then A.emitShedScoreMask F Ld Ctr Budget
            -- only float streams contribute to a contraction
            else if F.typeOf Ld = .floatingPoint then F.emitMask Ld Ctr Budget .fpZero
            else F

def softmax (Sites : List ℕ) : Bool := Sites.any fun Ld => (A.findSoftmaxScore F Ld).isSome

def emitShedAll (Sites : List ℕ) (Budget : Operand) : Func :=
  Sites.foldl (A.emitShedSite (A.softmax F Sites) Budget) F

/-! ## What the weaving relies on -/

/-- A loop's header is reachable and dominates the blocks of the loop, a canonical induction variable
    is a PHI of the header, and a use list holds the users. -/
structure Sound (G : Cfg ℕ) : Prop where
  reachable : ∀ b L, A.getLoopFor b = some L → G.Reachable L
  dominates : ∀ b L, A.getLoopFor b = some L → L = b ∨ G.StrictDom L b
  phi : ∀ F L IV, A.getCanonicalInductionVariable F L = some IV →
    ∃ I ∈ F.body L, I.id = IV ∧ I.op = .phi
  mem_useOrder : ∀ v l I, I ∈ A.useOrder v l ↔ I ∈ l

/-- A well-formed function, loads of it, and a budget computed ahead of every loop. -/
structure ShedInput (Sites : List ℕ) (Budget : Operand) : Prop where
  sound : A.Sound F.cfg
  wellFormed : F.WellFormed
  loads : ∀ Ld ∈ Sites, ∃ b, ∃ I ∈ F.body b, I.id = Ld ∧ I.op = .load
  budget : ∀ b L, A.getLoopFor b = some L →
    Budget.All fun v => ∃ a, v ∈ F.ids a ∧ F.cfg.StrictDom a L

variable {A F} {Sites : List ℕ} {Budget : Operand} {IV L Ld M b x y : ℕ}

/-! ## Following the users -/

theorem mem_users (hA : A.Sound F.cfg) {p : Instr → Bool}
    (h : y ∈ ((A.users F x).filter p).map Instr.id) :
    ∃ b, ∃ I ∈ F.body b, I.uses x = true ∧ p I = true ∧ I.id = y := by
  obtain ⟨I, hI, rfl⟩ := List.mem_map.1 h
  obtain ⟨hI, hp⟩ := List.mem_filter.1 hI
  obtain ⟨hI, huses⟩ := List.mem_filter.1 ((hA.mem_useOrder _ _ _).1 hI)
  obtain ⟨b, -, hI⟩ := List.mem_flatMap.1 hI
  exact ⟨b, I, hI, huses, hp, rfl⟩

/-- What the walk crosses is neither a PHI nor a terminator. -/
theorem op_of_crossed {I : Instr} (h : (isArith I || isShuffle I) = true) :
    I.op ≠ .phi ∧ I.op ≠ .terminator := by
  unfold isArith isShuffle at h
  constructor <;> intro hop <;> simp [hop] at h

/-- **What holds of a load, and of every user that is neither a PHI nor a terminator with the value it
    uses, holds of the load's score.** -/
theorem findSoftmaxScore_induction {P : ℕ → Prop} (hA : A.Sound F.cfg)
    (hstep : ∀ x, P x → ∀ b, ∀ I ∈ F.body b, I.uses x = true → I.op ≠ .phi → I.op ≠ .terminator →
      P I.id)
    (hLd : P Ld) (h : A.findSoftmaxScore F Ld = some M) : P M := by
  refine walk_induction ?_ ?_ h
  · intro x hx y hy
    obtain ⟨b, I, hI, huses, hcross, rfl⟩ := mem_users hA hy
    obtain ⟨hphi, hterm⟩ := op_of_crossed hcross
    exact hstep x hx b I hI huses hphi hterm
  · intro y hy
    exact List.mem_singleton.1 hy ▸ hLd

/-- Defined by an instruction that is neither a PHI nor a terminator. -/
def Computed (F : Func) (v : ℕ) : Prop :=
  ∃ b, ∃ I ∈ F.body b, I.id = v ∧ I.op ≠ .phi ∧ I.op ≠ .terminator

theorem Computed.of_load (h : ∃ b, ∃ I ∈ F.body b, I.id = Ld ∧ I.op = .load) : Computed F Ld := by
  obtain ⟨b, I, hI, hid, hop⟩ := h
  exact ⟨b, I, hI, hid, by simp [hop], by simp [hop]⟩

theorem Computed.ne_phi (hF : F.WellFormed) (hx : Computed F x) {I : Instr} (hI : I ∈ F.body b)
    (hop : I.op = .phi) : x ≠ I.id := by
  obtain ⟨a, J, hJ, rfl, hphi, -⟩ := hx
  intro hid
  exact hphi (hF.eq_of_id hJ hI hid ▸ hop)

/-- A computed instruction stands behind the PHIs of its block and before the terminator. -/
theorem Computed.split (hF : F.WellFormed) (hx : Computed F x) :
    ∃ b l I post, F.body b = l ++ I :: post ∧ I.id = x ∧ I.op ≠ .phi ∧
      (∃ r T, post = r ++ [T]) ∧ ∀ J ∈ post, J.op ≠ .phi := by
  obtain ⟨b, I, hI, rfl, hphi, hterm⟩ := hx
  obtain ⟨q, T, hq, hT, -⟩ := hF.terminated b (hF.body_mem b I hI)
  have hIq : I ∈ q := by
    rw [hq, List.mem_append, List.mem_singleton] at hI
    exact hI.resolve_right fun h => hterm (h ▸ hT)
  obtain ⟨l, r, rfl⟩ := List.append_of_mem hIq
  have hbody : F.body b = l ++ I :: (r ++ [T]) := by
    rw [hq, List.append_assoc, List.cons_append]
  -- a PHI behind `I` would make `I` one too
  refine ⟨b, l, I, r ++ [T], hbody, rfl, hphi, ⟨r, T, rfl⟩, fun J hJ hJphi => hphi ?_⟩
  have hpair := hF.phis_first b
  rw [hbody, List.pairwise_append] at hpair
  exact List.rel_of_pairwise_cons hpair.2.1 hJ hJphi

/-! ## The counter -/

/-- Behind the PHIs of the header, before its terminator. -/
theorem headerSplit (hF : F.WellFormed) {I : Instr} (hI : I ∈ F.body L) (hop : I.op = .phi) :
    ∃ q T, F.body L = q ++ [T] ∧ T.op ≠ .phi ∧ I ∈ q := by
  obtain ⟨q, T, hq, hT, -⟩ := hF.terminated L (hF.body_mem L I hI)
  have hTphi : T.op ≠ .phi := by simp [hT]
  rw [hq, List.mem_append, List.mem_singleton] at hI
  exact ⟨q, T, hq, hTphi, hI.resolve_right fun h => hTphi (h ▸ hop)⟩

section

variable {q : List Instr} {T P : Instr}

theorem fresh_castIV : F.Fresh [F.castIV IV] where
  ids_eq := rfl
  not_phi := by simp [castIV]
  not_terminator := by simp [castIV]
  incoming_eq := by simp [castIV]

theorem wellFormed_insertCast (hF : F.WellFormed) (hq : F.body L = q ++ [T]) (hT : T.op ≠ .phi) :
    (F.insertAt L q.length [F.castIV IV]).WellFormed :=
  hF.insertAt fresh_castIV hq (by simpa using hT) (List.cons_ne_nil _ _)

theorem valid_insertCast (hF : F.Valid) (hq : F.body L = q ++ [T]) (hP : P ∈ q) :
    (F.insertAt L q.length [F.castIV P.id]).Valid := by
  refine hF.insertAt hq ⟨⟨fun x hx => ?_, fun p hp => (List.not_mem_nil hp).elim⟩, trivial⟩
  obtain rfl := List.mem_singleton.1 hx
  exact Or.inl (List.mem_map_of_mem hP)

/-- The cast changes the users of the induction variable only. -/
theorem users_insertCast (hx : x ≠ IV) (k : ℕ) :
    A.users (F.insertAt L k [F.castIV IV]) x = A.users F x := by
  have hcast : (F.castIV IV).uses x = false := by simp [castIV, Instr.uses, hx]
  have hbody : ∀ b, ((F.insertAt L k [F.castIV IV]).body b).filter (fun I => I.uses x) =
      (F.body b).filter fun I => I.uses x := by
    intro b
    by_cases hb : b = L
    · subst hb
      conv_rhs => rw [← List.take_append_drop k (F.body b)]
      simp only [Func.insertAt, Function.update_self, List.filter_append, List.filter_cons, hcast,
        List.filter_nil, List.append_nil, Bool.false_eq_true, if_false]
    · rw [insertAt_body_ne hb]
  unfold users instructions
  rw [List.filter_flatMap, List.filter_flatMap]
  exact congrArg _ (List.flatMap_congr fun b _ => hbody b)

/-- The counter's cast leaves the score where it is. -/
theorem findSoftmaxScore_insertCast (hA : A.Sound F.cfg) (hF : F.WellFormed) (hP : P ∈ F.body L)
    (hop : P.op = .phi) (hLd : Ld ≠ P.id) (k : ℕ) :
    A.findSoftmaxScore (F.insertAt L k [F.castIV P.id]) Ld = A.findSoftmaxScore F Ld := by
  have hne : ∀ {p : Instr → Bool}, (∀ I, p I = true → I.op ≠ .phi) → ∀ x, x ≠ P.id →
      ∀ y ∈ ((A.users F x).filter p).map Instr.id, y ≠ P.id := by
    intro p hp x _ y hy hyP
    obtain ⟨b, I, hI, -, hpI, rfl⟩ := mem_users hA hy
    exact hp I hpI (hF.eq_of_id hI hP hyP ▸ hop)
  have hreach : ∀ x, x ≠ P.id →
      A.reachesExp (F.insertAt L k [F.castIV P.id]) x = A.reachesExp F x := by
    intro x hx
    unfold reachesExp
    rw [walk_congr (hne (p := isArith) fun I hI => (op_of_crossed (by simp [hI])).1) (fun x hx => ?_)
      fun y hy => List.mem_singleton.1 hy ▸ hx]
    rw [users_insertCast hx]
    exact ⟨rfl, rfl⟩
  refine walk_congr (hne fun I hI => (op_of_crossed hI).1) (fun x hx => ?_)
    fun y hy => List.mem_singleton.1 hy ▸ hLd
  rw [users_insertCast hx, hreach x hx]
  exact ⟨rfl, rfl⟩

/-- The induction variable as it is, or its cast in front of the header's terminator. -/
theorem coerceIV_cases (hF : F.WellFormed) (hP : P ∈ F.body L) (hop : P.op = .phi) :
    (F.getIntegerBitWidth P.id = 32 ∧ F.coerceIV L P.id = (P.id, F)) ∨
    (F.getIntegerBitWidth P.id ≠ 32 ∧ ∃ q T, F.body L = q ++ [T] ∧ T.op ≠ .phi ∧ P ∈ q ∧
      F.coerceIV L P.id = (F.next, F.insertAt L q.length [F.castIV P.id])) := by
  unfold coerceIV
  by_cases hw : F.getIntegerBitWidth P.id = 32
  · exact Or.inl ⟨hw, if_pos hw⟩
  · obtain ⟨q, T, hq, hT, hPq⟩ := headerSplit hF hP hop
    refine Or.inr ⟨hw, q, T, hq, hT, hPq, ?_⟩
    rw [if_neg hw, hq, List.length_append, List.length_singleton, Nat.add_sub_cancel]
    rfl

theorem wellFormed_coerceIV (hF : F.WellFormed) (hP : P ∈ F.body L) (hop : P.op = .phi) :
    (F.coerceIV L P.id).2.WellFormed := by
  rcases coerceIV_cases hF hP hop with ⟨-, heq⟩ | ⟨-, q, T, hq, hT, -, heq⟩
  · rwa [heq]
  · rw [heq]
    exact wellFormed_insertCast hF hq hT

theorem valid_coerceIV (hF : F.WellFormed) (hV : F.Valid) (hP : P ∈ F.body L) (hop : P.op = .phi) :
    (F.coerceIV L P.id).2.Valid := by
  rcases coerceIV_cases hF hP hop with ⟨-, heq⟩ | ⟨-, q, T, hq, -, hPq, heq⟩
  · rwa [heq]
  · rw [heq]
    exact valid_insertCast hV hq hPq

/-- The coercion leaves every instruction as it is. -/
theorem sublist_coerceIV (L IV b : ℕ) : (F.body b).Sublist ((F.coerceIV L IV).2.body b) := by
  unfold coerceIV
  split
  · exact List.Sublist.refl _
  · exact sublist_insertAt b

theorem extends_coerceIV (L IV : ℕ) : F.Extends (F.coerceIV L IV).2 := by
  unfold coerceIV
  split
  · exact Extends.refl F
  · exact extends_insertAt

theorem typeOf_coerceIV (hF : F.WellFormed) (hP : P ∈ F.body L) (hop : P.op = .phi) {I : Instr}
    (hI : I ∈ F.body b) : (F.coerceIV L P.id).2.typeOf I.id = F.typeOf I.id := by
  have hI' := (sublist_coerceIV L P.id b).subset hI
  rw [typeOf, typeOf, hF.instr_eq hI, (wellFormed_coerceIV hF hP hop).instr_eq hI']

theorem findSoftmaxScore_coerceIV (hA : A.Sound F.cfg) (hF : F.WellFormed) (hP : P ∈ F.body L)
    (hop : P.op = .phi) (hLd : Ld ≠ P.id) :
    A.findSoftmaxScore (F.coerceIV L P.id).2 Ld = A.findSoftmaxScore F Ld := by
  unfold coerceIV
  split
  · rfl
  · exact findSoftmaxScore_insertCast hA hF hP hop hLd _

end

/-! ## The mask -/

section

variable {l post : List Instr} {I : Instr} {Ctr : ℕ} {dropped : Operand}

theorem fresh_mask : F.Fresh [F.Keep Ctr Budget, F.Sel M dropped] where
  ids_eq := rfl
  not_phi := by simp [Keep, Sel]
  not_terminator := by simp [Keep, Sel]
  incoming_eq := by simp [Keep, Sel]

theorem emitMask_eq (hF : F.WellFormed) (hb : F.body b = l ++ I :: post) (hpost : post ≠ []) :
    F.emitMask I.id Ctr Budget dropped =
      (F.insertAt b (l ++ [I]).length [F.Keep Ctr Budget, F.Sel I.id dropped]).replaceUses I.id
        (F.next + 1) := by
  have hI : I ∈ F.body b := hb ▸ List.mem_append_right l (List.mem_cons_self ..)
  have hidx : (F.ids b).idxOf I.id = l.length := by
    have hnodup := hF.ids_nodup b
    rw [ids, hb, List.map_append, List.map_cons] at hnodup ⊢
    have hnot : I.id ∉ l.map Instr.id := fun h =>
      (List.nodup_append.1 hnodup).2.2 _ h _ (List.mem_cons_self ..) rfl
    rw [List.idxOf_append_of_notMem hnot, List.idxOf_cons_self, List.length_map, Nat.add_zero]
  have hlen : l.length + 1 < (F.body b).length := by
    have hpos := List.length_pos_of_ne_nil hpost
    rw [hb, List.length_append, List.length_cons]
    omega
  unfold emitMask getNextNode
  simp only [hF.parent_eq hI, hidx, if_pos hlen, List.length_append, List.length_singleton]
  rfl

theorem wellFormed_emitMask (hF : F.WellFormed) (hM : Computed F M) :
    (F.emitMask M Ctr Budget dropped).WellFormed := by
  obtain ⟨b, l, I, post, hb, rfl, -, ⟨r, T, rfl⟩, hphi⟩ := hM.split hF
  have hpost : r ++ [T] ≠ [] := List.concat_ne_nil T r
  rw [emitMask_eq hF hb hpost]
  rw [List.append_cons] at hb
  exact (hF.insertAt fresh_mask hb hphi hpost).replaceUses

theorem extends_emitMask : F.Extends (F.emitMask M Ctr Budget dropped) := by
  unfold emitMask
  split
  · exact Extends.refl F
  · exact extends_insertAt.trans extends_replaceUses

/-- **A mask whose counter and budget are available behind the masked instruction keeps the function
    valid.** -/
theorem valid_emitMask (hF : F.WellFormed) (hV : F.Valid) (hb : F.body b = l ++ I :: post)
    (hpost : post ≠ []) (hphi : ∀ J ∈ post, J.op ≠ .phi)
    (hCtr : F.Available b ((l ++ [I]).map Instr.id) Ctr)
    (hBudget : Budget.All (F.Available b ((l ++ [I]).map Instr.id)))
    (hdropped : ∀ P, dropped.All P) : (F.emitMask I.id Ctr Budget dropped).Valid := by
  rw [emitMask_eq hF hb hpost]
  rw [List.append_cons] at hb
  refine Valid.replaceUses (hV.insertAt hb ?_) (hF.insertAt fresh_mask hb hphi hpost)
  have hmono : ∀ v, F.Available b ((l ++ [I]).map Instr.id) v →
      (F.insertAt b (l ++ [I]).length [F.Keep Ctr Budget, F.Sel I.id dropped]).Available b
        ((l ++ [I]).map Instr.id) v :=
    fun v hv => hv.extends extends_insertAt (List.Subset.refl _)
  refine ⟨⟨fun x hx => ?_, fun p hp => (List.not_mem_nil hp).elim⟩,
    ⟨fun x hx => ?_, fun p hp => (List.not_mem_nil hp).elim⟩, trivial⟩
  · rcases List.mem_cons.1 hx with rfl | hx
    · exact hmono Ctr hCtr
    · rw [List.mem_singleton.1 hx]
      exact hBudget.mono hmono
  · rcases List.mem_cons.1 hx with rfl | hx
    · exact Or.inl (List.mem_append_right _ (List.mem_singleton_self _))
    · rcases List.mem_cons.1 hx with rfl | hx
      · exact Or.inl (by simp)
      · rw [List.mem_singleton.1 hx]
        exact hdropped _

end

/-! ## A keep ahead of its counter -/

/-- In a reachable block a compare stands ahead of the counter `c` it reads, the cast of the PHI `iv`. -/
structure EarlyKeep (F : Func) (L c iv : ℕ) : Prop where
  reachable : F.cfg.Reachable L
  early : ∃ K C, [K, C].Sublist (F.body L) ∧ .inst c ∈ K.args ∧
    C.id = c ∧ (∃ op, C.op = .cast op) ∧ C.args = [.inst iv]
  phi : ∃ P ∈ F.body L, P.id = iv ∧ P.op = .phi

section

variable {c iv : ℕ}

theorem EarlyKeep.not_valid (hF : F.WellFormed) (h : EarlyKeep F L c iv) : ¬ F.Valid := by
  obtain ⟨K, C, hsub, hK, rfl, -, -⟩ := h.early
  obtain ⟨r, r', hbody, hKr, hCr⟩ := List.cons_sublist_iff.1 hsub
  obtain ⟨l, m, rfl⟩ := List.append_of_mem hKr
  rw [List.append_assoc, List.cons_append] at hbody
  intro hV
  have hC : C.id ∈ (K :: (m ++ r')).map Instr.id :=
    List.mem_map_of_mem (List.mem_cons_of_mem K
      (List.mem_append_right m (List.singleton_sublist.1 hCr)))
  have hnodup := hF.ids_nodup L
  rw [ids, hbody, List.map_append] at hnodup
  refine Cfg.not_available h.reachable (fun a ha => ?_) ?_ (hV.available hbody hK)
  · exact hF.ids_block a L C.id ha (by
      rw [ids, hbody, List.map_append]
      exact List.mem_append_right _ hC)
  · exact fun hCl => (List.nodup_append.1 hnodup).2.2 _ hCl _ hC rfl

theorem EarlyKeep.insertAt {k : ℕ} {new : List Instr} (h : EarlyKeep F L c iv) :
    EarlyKeep (F.insertAt b k new) L c iv where
  reachable := h.reachable
  early := by
    obtain ⟨K, C, hsub, hKC⟩ := h.early
    exact ⟨K, C, hsub.trans (sublist_insertAt L), hKC⟩
  phi := by
    obtain ⟨P, hP, hid⟩ := h.phi
    exact ⟨P, (sublist_insertAt L).subset hP, hid⟩

theorem EarlyKeep.replaceUses {Sel : ℕ} (h : EarlyKeep F L c iv) (hc : M ≠ c) (hiv : M ≠ iv) :
    EarlyKeep (F.replaceUses M Sel) L c iv where
  reachable := h.reachable
  early := by
    obtain ⟨K, C, hsub, hK, hC, ⟨op, hop⟩, hargs⟩ := h.early
    obtain ⟨s', hs', hrel⟩ : ∃ s', s'.Sublist ((F.replaceUses M Sel).body L) ∧
        List.Forall₂ (fun I J => ∃ q, J = F.replaceInstr M Sel L q I) [K, C] s' :=
      sublist_replaceFrom hsub
    obtain ⟨_, t, ⟨q, rfl⟩, hrelC, rfl⟩ := List.forall₂_cons_left_iff.1 hrel
    obtain ⟨_, t, ⟨q', rfl⟩, hrelNil, rfl⟩ := List.forall₂_cons_left_iff.1 hrelC
    obtain rfl := List.forall₂_nil_left_iff.1 hrelNil
    refine ⟨_, _, hs', mem_args_replaceInstr hK (by simpa using hc.symm),
      (replaceInstr_id C).trans hC, ⟨op, (replaceInstr_op C).trans hop⟩, ?_⟩
    rw [args_replaceInstr (by simpa [hargs] using hiv), hargs]
  phi := by
    obtain ⟨P, hP, hid, hop⟩ := h.phi
    obtain ⟨P', hP', hid', hop'⟩ := extends_replaceUses.heads L P hP
    exact ⟨P', hP', hid'.trans hid, hop'.trans hop⟩

theorem EarlyKeep.emitMask {Ctr : ℕ} {dropped : Operand} (h : EarlyKeep F L c iv) (hc : M ≠ c)
    (hiv : M ≠ iv) : EarlyKeep (F.emitMask M Ctr Budget dropped) L c iv := by
  unfold Func.emitMask
  split
  · exact h
  · exact h.insertAt.replaceUses hc hiv

/-- **A mask in front of its own counter's cast leaves a compare ahead of its counter.** -/
theorem emitMask_early (hF : F.WellFormed) (hL : F.cfg.Reachable L) {l post : List Instr}
    {I C P : Instr} (hb : F.body L = l ++ I :: post) (hI : I.op ≠ .phi) (hC : C ∈ post)
    (hCop : ∃ op, C.op = .cast op) (hargs : C.args = [.inst P.id]) (hP : P ∈ F.body L)
    (hop : P.op = .phi) {dropped : Operand} :
    EarlyKeep (F.emitMask I.id C.id Budget dropped) L C.id P.id := by
  have hIb : I ∈ F.body L := hb ▸ List.mem_append_right l (List.mem_cons_self ..)
  have hIC : I.id ≠ C.id := by
    have hnodup := hF.ids_nodup L
    rw [ids, hb, List.map_append, List.map_cons] at hnodup
    intro hid
    exact (List.nodup_cons.1 (List.nodup_append.1 hnodup).2.1).1 (hid ▸ List.mem_map_of_mem hC)
  have hIP : I.id ≠ P.id := fun hid => hI (hF.eq_of_id hIb hP hid ▸ hop)
  rw [emitMask_eq hF hb (List.ne_nil_of_mem hC)]
  rw [List.append_cons] at hb
  refine EarlyKeep.replaceUses ⟨hL, ?_, P, (sublist_insertAt L).subset hP, rfl, hop⟩ hIC hIP
  refine ⟨F.Keep C.id Budget, C, ?_, List.mem_cons_self .., rfl, hCop, hargs⟩
  rw [insertAt_body hb]
  refine List.cons_sublist_iff.2 ⟨_, _, rfl, ?_, List.singleton_sublist.2 hC⟩
  exact List.mem_append_right _ (List.mem_cons_self ..)

end

/-! ## One site -/

section

variable (A)

/-- The instruction that a site's turn masks, if it masks one. -/
def maskTarget (Softmax : Bool) (F : Func) (Ld : ℕ) : Option ℕ :=
  match A.findSoftmaxScore F Ld with
  | some Score => some Score
  | none => if !Softmax && F.typeOf Ld = .floatingPoint then some Ld else none

/-- What stands in for a masked value in the iterations that are dropped: `-∞` for a score. -/
def droppedFor (F : Func) (Ld : ℕ) : Operand :=
  if (A.findSoftmaxScore F Ld).isSome then .fpNegInf else .fpZero

/-- The mask that a site's turn weaves, if it weaves one. -/
def shedMask (Softmax : Bool) (F : Func) (Ld : ℕ) : Option ShedMask :=
  match (F.parent Ld).bind A.getLoopFor with
  | none => none
  | some L =>
      match A.getCanonicalInductionVariable F L with
      | none => none
      | some _ => (A.maskTarget Softmax F Ld).map fun M => ⟨L, M, A.droppedFor F Ld⟩

/-- If a mask is woven, the induction variable is 32 bits wide or the mask is not in the header. -/
def CounterFirst (Softmax : Bool) (F : Func) (Ld : ℕ) : Prop :=
  ∀ L IV M, (F.parent Ld).bind A.getLoopFor = some L →
    A.getCanonicalInductionVariable F L = some IV → A.maskTarget Softmax F Ld = some M →
    F.getIntegerBitWidth IV = 32 ∨ F.parent M ≠ some L

end

variable {Softmax : Bool}

theorem shedMask_eq {IV : ℕ} (hL : (F.parent Ld).bind A.getLoopFor = some L)
    (hIV : A.getCanonicalInductionVariable F L = some IV) :
    A.shedMask Softmax F Ld = (A.maskTarget Softmax F Ld).map fun M => ⟨L, M, A.droppedFor F Ld⟩ := by
  simp only [shedMask, hL, hIV]

theorem counterFirst_of_shedMask (h : A.shedMask Softmax F Ld = none) :
    A.CounterFirst Softmax F Ld := by
  intro L IV M hL hIV hM
  rw [shedMask_eq hL hIV, hM] at h
  cases h

theorem droppedFor_all (Ld : ℕ) (P : ℕ → Prop) : (A.droppedFor F Ld).All P := by
  unfold droppedFor
  split <;> trivial

/-- What one site's turn comes to. -/
theorem emitShedSite_cases (Softmax : Bool) (h : A.ShedInput F Sites Budget) (hLd : Ld ∈ Sites) :
    (A.emitShedSite Softmax Budget F Ld = F ∧ A.shedMask Softmax F Ld = none) ∨
    ∃ L P, (F.parent Ld).bind A.getLoopFor = some L ∧
      A.getCanonicalInductionVariable F L = some P.id ∧ P ∈ F.body L ∧ P.op = .phi ∧
      ((A.maskTarget Softmax F Ld = none ∧
        A.emitShedSite Softmax Budget F Ld = (F.coerceIV L P.id).2) ∨
      ∃ M, A.maskTarget Softmax F Ld = some M ∧
        A.emitShedSite Softmax Budget F Ld =
          (F.coerceIV L P.id).2.emitMask M (F.coerceIV L P.id).1 Budget (A.droppedFor F Ld)) := by
  unfold emitShedSite shedMask
  cases hL : (F.parent Ld).bind A.getLoopFor with
  | none => exact Or.inl ⟨rfl, rfl⟩
  | some L =>
      cases hIV : A.getCanonicalInductionVariable F L with
      | none =>
          left
          simp [shedCounter, hIV]
      | some IV =>
          obtain ⟨P, hP, rfl, hop⟩ := h.sound.phi F L IV hIV
          obtain ⟨b, I, hI, rfl, hIop⟩ := h.loads Ld hLd
          have hne : I.id ≠ P.id :=
            (Computed.of_load ⟨b, I, hI, rfl, hIop⟩).ne_phi h.wellFormed hP hop
          have hscore := findSoftmaxScore_coerceIV h.sound h.wellFormed hP hop hne
          have htype := typeOf_coerceIV h.wellFormed hP hop hI
          unfold maskTarget droppedFor
          simp only [shedCounter, hIV, emitShedScoreMask, hscore, htype]
          cases hS : A.findSoftmaxScore F I.id with
          | some Score =>
              right
              refine ⟨L, P, rfl, hIV, hP, hop, Or.inr ⟨Score, rfl, ?_⟩⟩
              simp
          | none =>
              cases Softmax with
              | true =>
                  left
                  simp
              | false =>
                  right
                  refine ⟨L, P, rfl, hIV, hP, hop, ?_⟩
                  by_cases hfloat : F.typeOf I.id = .floatingPoint
                  · right
                    exact ⟨I.id, by simp [hfloat], by simp [hfloat]⟩
                  · left
                    simp [hfloat]

theorem maskTarget_induction {P : ℕ → Prop} (hA : A.Sound F.cfg)
    (hstep : ∀ x, P x → ∀ b, ∀ I ∈ F.body b, I.uses x = true → I.op ≠ .phi → I.op ≠ .terminator →
      P I.id)
    (hLd : P Ld) (h : A.maskTarget Softmax F Ld = some M) : P M := by
  unfold maskTarget at h
  split at h
  · next Score hscore =>
      rw [← Option.some.inj h]
      exact findSoftmaxScore_induction hA hstep hLd hscore
  · split at h
    · exact Option.some.inj h ▸ hLd
    · cases h

theorem computed_maskTarget (h : A.ShedInput F Sites Budget) (hLd : Ld ∈ Sites)
    (hM : A.maskTarget Softmax F Ld = some M) : Computed F M :=
  maskTarget_induction h.sound (fun _ _ b I hI _ hphi hterm => ⟨b, I, hI, rfl, hphi, hterm⟩)
    (Computed.of_load (h.loads Ld hLd)) hM

/-- What is masked stands in the load's block or in a block that it strictly dominates. -/
theorem maskTarget_below (h : A.ShedInput F Sites Budget) (hV : F.Valid) {a : ℕ}
    (hLd : Ld ∈ F.ids a) (hM : A.maskTarget Softmax F Ld = some M) :
    ∀ b, M ∈ F.ids b → a = b ∨ F.cfg.StrictDom a b := by
  refine maskTarget_induction (P := fun x => ∀ b, x ∈ F.ids b → a = b ∨ F.cfg.StrictDom a b)
    h.sound ?_ (fun b hb => Or.inl (h.wellFormed.ids_block a b Ld hLd hb)) hM
  intro x hx b I hI huses hphi _ c hc
  obtain rfl := h.wellFormed.ids_block b c I.id (List.mem_map_of_mem hI) hc
  obtain ⟨l, post, hbody⟩ := List.append_of_mem hI
  have harg : .inst x ∈ I.args := by
    simpa [Instr.uses, h.wellFormed.incoming_phi b I hI hphi] using huses
  -- the used value is in the same block, or in one that strictly dominates it
  rcases hV.available hbody harg with hpre | ⟨d, hd, hdom⟩
  · refine hx b ?_
    rw [ids, hbody, List.map_append]
    exact List.mem_append_left _ hpre
  · rcases hx d hd with rfl | hxd
    · exact Or.inr hdom
    · exact Or.inr (hxd.trans hdom)

/-- What is masked stands in the header or in a block that the header strictly dominates; and not in
    the header if the load does not. -/
theorem dominates_maskTarget (h : A.ShedInput F Sites Budget) (hV : F.Valid) (hLd : Ld ∈ Sites)
    (hL : (F.parent Ld).bind A.getLoopFor = some L) (hM : A.maskTarget Softmax F Ld = some M)
    (hMb : M ∈ F.ids b) :
    F.cfg.StrictDom L b ∨ L = b ∧ F.parent Ld = some L := by
  obtain ⟨a, I, hI, rfl, -⟩ := h.loads Ld hLd
  rw [h.wellFormed.parent_eq hI] at hL ⊢
  have hbelow := maskTarget_below h hV (List.mem_map_of_mem hI) hM b hMb
  rcases h.sound.dominates a L hL with rfl | hdom
  · exact hbelow.elim (fun hab => Or.inr ⟨hab, rfl⟩) Or.inl
  · exact Or.inl (hbelow.elim (fun hab => hab ▸ hdom) hdom.trans)

section

variable {P I : Instr} {l post : List Instr}

/-- The counter is available behind the masked instruction, unless its cast is further down the same
    header. -/
theorem available_coerceIV (hF : F.WellFormed) (hP : P ∈ F.body L) (hop : P.op = .phi)
    (hb : F.body b = l ++ I :: post) (hI : I.op ≠ .phi) (hphi : ∀ J ∈ post, J.op ≠ .phi)
    (hdom : F.cfg.StrictDom L b ∨ L = b) (hfirst : F.getIntegerBitWidth P.id = 32 ∨ b ≠ L) :
    (F.coerceIV L P.id).2.body b = l ++ I :: post ∧
      (F.coerceIV L P.id).2.Available b ((l ++ [I]).map Instr.id) (F.coerceIV L P.id).1 := by
  rcases coerceIV_cases hF hP hop with ⟨-, heq⟩ | ⟨hw, q, T, hq, -, -, heq⟩
  · rw [heq]
    refine ⟨hb, ?_⟩
    rcases hdom with hdom | rfl
    · exact Or.inr ⟨L, List.mem_map_of_mem hP, hdom⟩
    · left
      rw [hb, List.mem_append, List.mem_cons] at hP
      have hPl : P ∈ l := hP.resolve_right fun h =>
        h.elim (fun h => hI (h ▸ hop)) fun h => hphi P h hop
      exact List.mem_map_of_mem (List.mem_append_left _ hPl)
  · have hbL := hfirst.resolve_left hw
    rw [heq]
    refine ⟨(insertAt_body_ne hbL).trans hb, Or.inr ⟨L, ?_, hdom.resolve_right fun h => hbL h.symm⟩⟩
    rw [ids, insertAt_body hq]
    simp [castIV]

end

/-- **A site's turn keeps the function valid if the counter comes first.** -/
theorem emitShedSite_valid (h : A.ShedInput F Sites Budget) (hV : F.Valid) (hLd : Ld ∈ Sites)
    (hfirst : A.CounterFirst Softmax F Ld) : (A.emitShedSite Softmax Budget F Ld).Valid := by
  have hF := h.wellFormed
  rcases emitShedSite_cases Softmax h hLd with ⟨heq, -⟩ | ⟨L, P, hL, hIV, hP, hop, hcase⟩
  · rwa [heq]
  rcases hcase with ⟨-, heq⟩ | ⟨M, hM, heq⟩
  · rw [heq]
    exact valid_coerceIV hF hV hP hop
  obtain ⟨b, l, I, post, hb, rfl, hI, ⟨r, T, rfl⟩, hphi⟩ := (computed_maskTarget h hLd hM).split hF
  have hIb : I ∈ F.body b := hb ▸ List.mem_append_right l (List.mem_cons_self ..)
  have hdom := (dominates_maskTarget h hV hLd hL hM (List.mem_map_of_mem hIb)).imp_right And.left
  have hwhere : F.getIntegerBitWidth P.id = 32 ∨ b ≠ L := by
    refine (hfirst L P.id I.id hL hIV hM).imp_right fun hne hbL => hne ?_
    rw [hF.parent_eq hIb, hbL]
  obtain ⟨hbody, hCtr⟩ := available_coerceIV hF hP hop hb hI hphi hdom hwhere
  rw [heq]
  refine valid_emitMask (wellFormed_coerceIV hF hP hop) (valid_coerceIV hF hV hP hop) hbody
    (List.concat_ne_nil T r) hphi hCtr ?_ (droppedFor_all Ld)
  obtain ⟨c, -, hc⟩ := Option.bind_eq_some_iff.1 hL
  refine (h.budget c L hc).mono fun v ⟨a, ha, haL⟩ => ?_
  have hav : F.Available b ((l ++ [I]).map Instr.id) v := by
    rcases hdom with hdom | rfl
    · exact Or.inr ⟨a, ha, haL.trans hdom⟩
    · exact Or.inr ⟨a, ha, haL⟩
  exact hav.extends (extends_coerceIV L P.id) (List.Subset.refl _)

theorem Computed.extends {F' : Func} (hx : Computed F x) (hext : F.Extends F') : Computed F' x := by
  obtain ⟨b, I, hI, rfl, hphi, hterm⟩ := hx
  obtain ⟨J, hJ, hid, hop⟩ := hext.heads b I hI
  exact ⟨b, J, hJ, hid, hop ▸ hphi, hop ▸ hterm⟩

/-- **A site's turn whose counter does not come first leaves a compare ahead of its counter.** -/
theorem emitShedSite_early (h : A.ShedInput F Sites Budget) (hLd : Ld ∈ Sites)
    (hnot : ¬ A.CounterFirst Softmax F Ld) :
    ∃ L c iv, EarlyKeep (A.emitShedSite Softmax Budget F Ld) L c iv := by
  have hF := h.wellFormed
  rcases emitShedSite_cases Softmax h hLd with ⟨-, hnone⟩ | ⟨L, P, hL, hIV, hP, hop, hcase⟩
  · exact absurd (counterFirst_of_shedMask hnone) hnot
  rcases hcase with ⟨hnone, -⟩ | ⟨M, hM, heq⟩
  · refine absurd (fun L' IV' M' _ _ hM' => ?_) hnot
    rw [hnone] at hM'
    cases hM'
  obtain ⟨b, l, I, post, hb, rfl, hI, ⟨r, T, rfl⟩, -⟩ := (computed_maskTarget h hLd hM).split hF
  have hIb : I ∈ F.body b := hb ▸ List.mem_append_right l (List.mem_cons_self ..)
  obtain ⟨hw, rfl⟩ : F.getIntegerBitWidth P.id ≠ 32 ∧ b = L := by
    by_contra hor
    refine hnot fun L' IV' M' hL' hIV' hM' => ?_
    obtain rfl := Option.some.inj (hL'.symm.trans hL)
    obtain rfl := Option.some.inj (hIV'.symm.trans hIV)
    obtain rfl := Option.some.inj (hM'.symm.trans hM)
    refine (not_and_or.1 hor).imp not_not.1 fun hbL hparent => hbL ?_
    rw [hF.parent_eq hIb] at hparent
    exact Option.some.inj hparent
  obtain ⟨-, q, U, hq, hU, hPq, hcoerce⟩ := (coerceIV_cases hF hP hop).resolve_left fun h => hw h.1
  -- the counter's cast goes behind everything but the terminator, the mask right behind `I`
  obtain ⟨rfl, rfl⟩ : q = l ++ I :: r ∧ U = T := by
    have hlast : (l ++ I :: r) ++ [T] = q ++ [U] := by
      rw [← hq, hb, List.append_assoc, List.cons_append]
    obtain ⟨hq', hUT⟩ := List.append_inj' hlast rfl
    exact ⟨hq'.symm, (List.head_eq_of_cons_eq hUT).symm⟩
  have hb₁ : (F.insertAt b (l ++ I :: r).length [F.castIV P.id]).body b =
      l ++ I :: (r ++ [F.castIV P.id, U]) := by
    rw [insertAt_body hq, List.append_assoc, List.append_assoc]
    rfl
  obtain ⟨c, -, hc⟩ := Option.bind_eq_some_iff.1 hL
  rw [heq, hcoerce]
  exact ⟨b, _, _, emitMask_early (wellFormed_insertCast hF hq hU) (h.sound.reachable c b hc) hb₁ hI
    (List.mem_append_right r (List.mem_cons_self ..)) ⟨_, rfl⟩ rfl
    ((sublist_insertAt b).subset hP) hop⟩

/-- An early compare stays early through a site's turn: its counter is no stream value. -/
theorem EarlyKeep.emitShedSite {c iv : ℕ} (h : A.ShedInput F Sites Budget) (hLd : Ld ∈ Sites)
    (hearly : EarlyKeep F L c iv) : EarlyKeep (A.emitShedSite Softmax Budget F Ld) L c iv := by
  have hF := h.wellFormed
  obtain ⟨K, C, hsub, -, rfl, ⟨op, hCop⟩, hargs⟩ := hearly.early
  obtain ⟨Q, hQ, rfl, hQop⟩ := hearly.phi
  have hC : C ∈ F.body L := hsub.subset (by simp)
  have hcoerce : ∀ L' IV, EarlyKeep (F.coerceIV L' IV).2 L C.id Q.id := by
    intro L' IV
    unfold coerceIV
    split
    · exact hearly
    · exact hearly.insertAt
  rcases emitShedSite_cases Softmax h hLd with ⟨heq, -⟩ | ⟨L', P, -, -, -, -, hcase⟩
  · rwa [heq]
  rcases hcase with ⟨-, heq⟩ | ⟨M, hM, heq⟩
  · rw [heq]
    exact hcoerce L' P.id
  rw [heq]
  refine (hcoerce L' P.id).emitMask ?_ ((computed_maskTarget h hLd hM).ne_phi hF hQ hQop)
  refine (maskTarget_induction (P := fun x => Computed F x ∧ x ≠ C.id) h.sound ?_ ?_ hM).2
  · intro x hx b I hI huses hphi hterm
    refine ⟨⟨b, I, hI, rfl, hphi, hterm⟩, fun hid => ?_⟩
    obtain rfl := hF.eq_of_id hI hC hid
    have hxQ : x = Q.id := by
      simpa [Instr.uses, hargs, hF.incoming_phi b I hI hphi] using huses
    exact hx.1.ne_phi hF hQ hQop hxQ
  · refine ⟨Computed.of_load (h.loads Ld hLd), fun hid => ?_⟩
    obtain ⟨b, I, hI, rfl, hIop⟩ := h.loads Ld hLd
    rw [hF.eq_of_id hI hC hid, hCop] at hIop
    cases hIop

theorem ShedInput.extends {F' : Func} (h : A.ShedInput F Sites Budget) (hF' : F'.WellFormed)
    (hext : F.Extends F') : A.ShedInput F' Sites Budget where
  sound := hext.cfg_eq ▸ h.sound
  wellFormed := hF'
  loads := by
    intro Ld hLd
    obtain ⟨b, I, hI, hid, hop⟩ := h.loads Ld hLd
    obtain ⟨J, hJ, hid', hop'⟩ := hext.heads b I hI
    exact ⟨b, J, hJ, hid'.trans hid, hop'.trans hop⟩
  budget := by
    intro b L hL
    rw [hext.cfg_eq]
    exact (h.budget b L hL).mono fun v ⟨a, ha, hdom⟩ => ⟨a, hext.ids_subset a ha, hdom⟩

theorem emitShedSite_extends (Softmax : Bool) (h : A.ShedInput F Sites Budget) (hLd : Ld ∈ Sites) :
    (A.emitShedSite Softmax Budget F Ld).WellFormed ∧
      F.Extends (A.emitShedSite Softmax Budget F Ld) := by
  have hF := h.wellFormed
  rcases emitShedSite_cases Softmax h hLd with ⟨heq, -⟩ | ⟨L, P, -, -, hP, hop, hcase⟩
  · rw [heq]
    exact ⟨hF, Extends.refl F⟩
  have hF₁ := wellFormed_coerceIV hF hP hop
  have hext := extends_coerceIV (F := F) L P.id
  rcases hcase with ⟨-, heq⟩ | ⟨M, hM, heq⟩
  · rw [heq]
    exact ⟨hF₁, hext⟩
  · have hcomp := (computed_maskTarget h hLd hM).extends hext
    rw [heq]
    exact ⟨wellFormed_emitMask hF₁ hcomp, hext.trans extends_emitMask⟩

/-- A site's turn keeps the function well formed and everything else the weaving relies on. -/
theorem ShedInput.emitShedSite (h : A.ShedInput F Sites Budget) (hLd : Ld ∈ Sites) :
    A.ShedInput (A.emitShedSite Softmax Budget F Ld) Sites Budget :=
  h.extends (emitShedSite_extends Softmax h hLd).1 (emitShedSite_extends Softmax h hLd).2

/-- A load outside of its loop's header feeds nothing in the header that could be masked. -/
theorem counterFirst_of_outside (h : A.ShedInput F Sites Budget) (hV : F.Valid) (hLd : Ld ∈ Sites)
    (hout : ∀ L, (F.parent Ld).bind A.getLoopFor = some L → F.parent Ld ≠ some L) :
    A.CounterFirst Softmax F Ld := by
  intro L IV M hL _ hM
  right
  intro hMparent
  obtain ⟨b, I, hI, rfl, -⟩ := computed_maskTarget h hLd hM
  rw [h.wellFormed.parent_eq hI] at hMparent
  obtain rfl := Option.some.inj hMparent
  obtain ⟨c, -, hc⟩ := Option.bind_eq_some_iff.1 hL
  rcases dominates_maskTarget h hV hLd hL hM (List.mem_map_of_mem hI) with hdom | ⟨-, hparent⟩
  · exact (h.sound.reachable c b hc).not_strictDom_self hdom
  · exact hout b hL hparent

/-! ## All sites -/

/-- At every site's turn, on the function that the sites before it have left, the counter comes
    first. -/
def CountersFirst (A : Analyses) (Softmax : Bool) (Budget : Operand) : Func → List ℕ → Prop
  | _, [] => True
  | F, Ld :: Sites =>
      A.CounterFirst Softmax F Ld ∧
        CountersFirst A Softmax Budget (A.emitShedSite Softmax Budget F Ld) Sites

section

variable {todo : List ℕ}

theorem foldl_early {c iv : ℕ} (h : A.ShedInput F Sites Budget) (htodo : todo ⊆ Sites)
    (hearly : EarlyKeep F L c iv) :
    ¬ (todo.foldl (A.emitShedSite Softmax Budget) F).Valid := by
  induction todo generalizing F with
  | nil => exact hearly.not_valid h.wellFormed
  | cons Ld todo ih =>
      have hLd := htodo (List.mem_cons_self ..)
      exact ih (h.emitShedSite hLd) (fun x hx => htodo (List.mem_cons_of_mem Ld hx))
        (hearly.emitShedSite h hLd)

theorem foldl_valid_iff (h : A.ShedInput F Sites Budget) (hV : F.Valid) (htodo : todo ⊆ Sites) :
    (todo.foldl (A.emitShedSite Softmax Budget) F).Valid ↔
      A.CountersFirst Softmax Budget F todo := by
  induction todo generalizing F with
  | nil => exact ⟨fun _ => trivial, fun _ => hV⟩
  | cons Ld todo ih =>
      have hLd := htodo (List.mem_cons_self ..)
      have hrest : todo ⊆ Sites := fun x hx => htodo (List.mem_cons_of_mem Ld hx)
      rw [List.foldl_cons]
      by_cases hfirst : A.CounterFirst Softmax F Ld
      · rw [ih (h.emitShedSite hLd) (emitShedSite_valid h hV hLd hfirst) hrest]
        exact ⟨fun hcs => ⟨hfirst, hcs⟩, fun hcs => hcs.2⟩
      · obtain ⟨L, c, iv, hearly⟩ := emitShedSite_early h hLd hfirst
        exact iff_of_false (foldl_early (h.emitShedSite hLd) hrest hearly) fun hcs => hfirst hcs.1

/-- **Loads outside of their loops' headers are always masked behind their counters.** -/
theorem countersFirst_of_outside (h : A.ShedInput F Sites Budget) (hV : F.Valid)
    (hout : ∀ Ld ∈ Sites, ∀ L, (F.parent Ld).bind A.getLoopFor = some L → F.parent Ld ≠ some L)
    (htodo : todo ⊆ Sites) : A.CountersFirst Softmax Budget F todo := by
  induction todo generalizing F with
  | nil => trivial
  | cons Ld todo ih =>
      have hLd := htodo (List.mem_cons_self ..)
      have hfirst : A.CounterFirst Softmax F Ld := counterFirst_of_outside h hV hLd (hout Ld hLd)
      obtain ⟨hF', hext⟩ := emitShedSite_extends Softmax h hLd
      refine ⟨hfirst, ih (h.emitShedSite hLd) (emitShedSite_valid h hV hLd hfirst) ?_
        fun x hx => htodo (List.mem_cons_of_mem Ld hx)⟩
      intro Ld' hLd' L
      obtain ⟨b, I, hI, rfl, -⟩ := h.loads Ld' hLd'
      have hparent := hout I.id hLd' L
      rw [h.wellFormed.parent_eq hI] at hparent
      rwa [hF'.parent_eq_of_extends hext hI]

end

/-- **The woven function is valid exactly when, at every site that is masked, the induction variable
    is 32 bits wide or what is masked is not in the loop's header.** -/
theorem emitShedAll_valid_iff (h : A.ShedInput F Sites Budget) (hV : F.Valid) :
    (A.emitShedAll F Sites Budget).Valid ↔
      A.CountersFirst (A.softmax F Sites) Budget F Sites :=
  foldl_valid_iff h hV (List.Subset.refl Sites)

/-! ## A single-block loop -/

/-- Use lists in program order, one loop in block 1, and the header's first integer PHI. -/
def singleLoop : Analyses where
  versionMajor := 22
  getLoopFor b := if b = 1 then some 1 else none
  getCanonicalInductionVariable F L :=
    ((F.body L).find? fun I => decide (I.op = .phi) && decide (I.ty ≠ .floatingPoint)).map Instr.id
  useOrder _ l := l

/-- `for (i = 0; i < n; i++) acc += p[i]`, rotated into the one block 1, with `i` of `w` bits. Value 0
    is the budget, 2 is `i`, 5 is the load. -/
def streamLoop (w : ℕ) : Func where
  cfg := { entry := 0, succ := fun b => if b = 0 then [1] else if b = 1 then [1, 2] else [] }
  blocks := [0, 1, 2]
  body b :=
    if b = 0 then
      [{ id := 0, op := .other, ty := .int 32, args := [.arg 0] },
       { id := 1, op := .terminator, ty := .other }]
    else if b = 1 then
      [{ id := 2, op := .phi, ty := .int w, incoming := [(0, .otherConst 0), (1, .inst 7)] },
       { id := 3, op := .phi, ty := .floatingPoint, incoming := [(0, .fpZero), (1, .inst 6)] },
       { id := 4, op := .other, ty := .other, args := [.arg 1, .inst 2] },
       { id := 5, op := .load, ty := .floatingPoint, args := [.inst 4] },
       { id := 6, op := .binaryOperator, ty := .floatingPoint, args := [.inst 3, .inst 5] },
       { id := 7, op := .binaryOperator, ty := .int w, args := [.inst 2, .otherConst 1] },
       { id := 8, op := .icmp true, ty := .int 1, args := [.inst 7, .arg 2] },
       { id := 9, op := .terminator, ty := .other, args := [.inst 8] }]
    else if b = 2 then [{ id := 10, op := .terminator, ty := .other, args := [.inst 6] }]
    else []
  next := 11

section

variable (w : ℕ)

theorem streamLoop_wellFormed : (streamLoop w).WellFormed := by
  refine Checks.wellFormed ?_ fun b hb => ?_
  · simp [Checks, streamLoop, instructions]
  · simp only [streamLoop, List.mem_cons, List.not_mem_nil, or_false, not_or] at hb ⊢
    simp [hb]

theorem singleLoop_sound : singleLoop.Sound (streamLoop w).cfg where
  reachable := by
    intro b L hL
    simp only [singleLoop, Option.ite_none_right_eq_some, Option.some.injEq] at hL
    obtain ⟨-, rfl⟩ := hL
    exact .tail .refl (by simp [streamLoop])
  dominates := by
    intro b L hL
    simp only [singleLoop, Option.ite_none_right_eq_some, Option.some.injEq] at hL
    exact Or.inl (hL.2.symm.trans hL.1.symm)
  phi := by
    intro F L IV hIV
    obtain ⟨I, hI, rfl⟩ := Option.map_eq_some_iff.1 hIV
    have hphi := List.find?_some hI
    rw [Bool.and_eq_true, decide_eq_true_eq] at hphi
    exact ⟨I, List.mem_of_find?_eq_some hI, rfl, hphi.1⟩
  mem_useOrder := fun _ _ _ => Iff.rfl

theorem streamLoop_input : singleLoop.ShedInput (streamLoop w) [5] (.inst 0) where
  sound := singleLoop_sound w
  wellFormed := streamLoop_wellFormed w
  loads := by
    intro Ld hLd
    rw [List.mem_singleton.1 hLd]
    exact ⟨1, { id := 5, op := .load, ty := .floatingPoint, args := [.inst 4] }, by simp [streamLoop],
      rfl, rfl⟩
  budget := by
    intro b L hL
    simp only [singleLoop, Option.ite_none_right_eq_some, Option.some.injEq] at hL
    obtain ⟨-, rfl⟩ := hL
    exact ⟨0, by simp [streamLoop, ids], Cfg.strictDom_entry Nat.one_ne_zero⟩

theorem streamLoop_valid : ∀ w ∈ [32, 64], (streamLoop w).Valid := by
  have hcheck : ∀ w ∈ [32, 64], ∀ b ∈ (streamLoop w).blocks,
      (streamLoop w).BodyOk (streamLoop w).Dominates b [] ((streamLoop w).body b) := by
    decide +kernel
  exact fun w hw => (streamLoop_wellFormed w).valid_of_check (hcheck w hw)

end

/-- With a 32-bit induction variable the mask reads the PHI itself. -/
theorem streamLoop_valid_i32 :
    (singleLoop.emitShedAll (streamLoop 32) [5] (.inst 0)).Valid := by
  have hiff := emitShedAll_valid_iff (streamLoop_input 32) (streamLoop_valid 32 (by decide))
  refine hiff.2 ⟨fun L IV M hL hIV _ => Or.inl ?_, trivial⟩
  have hloop : ((streamLoop 32).parent 5).bind singleLoop.getLoopFor = some 1 := by decide +kernel
  have hphi : singleLoop.getCanonicalInductionVariable (streamLoop 32) 1 = some 2 := by
    decide +kernel
  obtain rfl := Option.some.inj (hloop.symm.trans hL)
  obtain rfl := Option.some.inj (hphi.symm.trans hIV)
  decide +kernel

/-- **With a 64-bit induction variable, the loop's mask reads its counter before it is computed.** -/
theorem streamLoop_keep_early : ¬ ∀ (A : Analyses) (F : Func) (Sites : List ℕ) (Budget : Operand),
    A.ShedInput F Sites Budget → F.Valid → (A.emitShedAll F Sites Budget).Valid := by
  intro hall
  have hvalid := hall singleLoop (streamLoop 64) [5] (.inst 0) (streamLoop_input 64)
    (streamLoop_valid 64 (by decide))
  have hfirst := ((foldl_valid_iff (streamLoop_input 64) (streamLoop_valid 64 (by decide))
    (List.Subset.refl [5])).1 hvalid).1
  exact absurd (hfirst 1 2 5 (by decide +kernel) (by decide +kernel) (by decide +kernel))
    (by decide +kernel)

end Analyses

end SchedPass
