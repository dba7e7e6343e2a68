import SchedPass.Lib.Ssa
import Mathlib.Data.List.Nodup

set_option autoImplicit false

/-! # The IR that is woven

A function is a control-flow graph with a list of instructions for each block. `Func.Valid` says that
every operand is available where it is used, a PHI's at the end of its incoming block. The two ways
in which the weaving edits a function keep it valid: inserting instructions whose operands are
available (`Func.Valid.insertAt`), and handing the uses of one value to another where the other
dominates them (`Func.Valid.replaceUses`). -/

namespace SchedPass

/-! ## Instructions -/

inductive Ty
  | int (width : ℕ)
  | floatingPoint
  | other
  deriving DecidableEq, Repr

inductive Operand
  | inst (id : ℕ)
  | arg (n : ℕ)
  | fpZero
  | fpNegInf
  | otherConst (n : ℕ)
  deriving DecidableEq, Repr

inductive Intrinsic
  | exp
  | exp2
  | nvvmEx2Approx
  | nvvmEx2ApproxFtz
  | nvvmEx2ApproxF
  | nvvmEx2ApproxD
  | maxnum
  | nvvmFmaxF
  | other
  deriving DecidableEq, Repr

inductive CastOp
  | trunc
  | zext
  | other
  deriving DecidableEq, Repr

inductive Opcode
  | phi
  | load
  | binaryOperator
  | cast (op : CastOp)
  | select
  | icmp (ult : Bool)
  | fcmp (relational : Bool)
  | call (intrinsic : Option Intrinsic) (callee : Option String)
  | terminator
  | other
  deriving DecidableEq, Repr

/-- An instruction. A PHI has its operands in `incoming`, with the blocks they come from. -/
structure Instr where
  id : ℕ
  op : Opcode
  ty : Ty
  args : List Operand := []
  incoming : List (ℕ × Operand) := []
  deriving DecidableEq, Repr

/-- The instruction that the operand names, if it names one, has the property. -/
def Operand.All (P : ℕ → Prop) : Operand → Prop
  | .inst v => P v
  | _ => True

instance (P : ℕ → Prop) [DecidablePred P] (x : Operand) : Decidable (x.All P) := by
  unfold Operand.All
  split <;> infer_instance

theorem Operand.All.mono {P Q : ℕ → Prop} {x : Operand} (h : x.All P) (hPQ : ∀ v, P v → Q v) :
    x.All Q := by
  unfold Operand.All at h ⊢
  split
  · exact hPQ _ h
  · trivial

def Instr.uses (I : Instr) (v : ℕ) : Bool :=
  decide (.inst v ∈ I.args) || decide (.inst v ∈ I.incoming.map Prod.snd)

theorem Instr.uses_iff_mem {I : Instr} {v : ℕ} :
    I.uses v = true ↔ .inst v ∈ I.args ∨ ∃ p ∈ I.incoming, p.2 = .inst v := by
  simp only [uses, List.mem_map, Bool.or_eq_true, decide_eq_true_eq]

/-! ## Functions -/

structure Func where
  cfg : Cfg ℕ
  blocks : List ℕ
  body : ℕ → List Instr
  /-- The id of the next new instruction. -/
  next : ℕ

namespace Func

variable (F : Func)

def ids (b : ℕ) : List ℕ := (F.body b).map Instr.id

def instructions : List Instr := F.blocks.flatMap F.body

def instr (v : ℕ) : Option Instr := F.instructions.find? fun I => I.id == v

def parent (v : ℕ) : Option ℕ := F.blocks.find? fun b => decide (v ∈ F.ids b)

structure WellFormed : Prop where
  entry_mem : F.cfg.entry ∈ F.blocks
  succ_mem : ∀ b ∈ F.blocks, ∀ c ∈ F.cfg.succ b, c ∈ F.blocks
  body_mem : ∀ b, ∀ I ∈ F.body b, b ∈ F.blocks
  ids_nodup : ∀ b, (F.ids b).Nodup
  ids_block : ∀ a b v, v ∈ F.ids a → v ∈ F.ids b → a = b
  fresh : ∀ b, ∀ v ∈ F.ids b, v < F.next
  phis_first : ∀ b, (F.body b).Pairwise fun I J => J.op = .phi → I.op = .phi
  terminated : ∀ b ∈ F.blocks, ∃ pre T,
    F.body b = pre ++ [T] ∧ T.op = .terminator ∧ ∀ I ∈ pre, I.op ≠ .terminator
  incoming_phi : ∀ b, ∀ I ∈ F.body b, I.op ≠ .phi → I.incoming = []

/-- The operands of an instruction of block `b`, behind the instructions `pre` of the block, are
    dominated by their definitions in the sense of `D`. -/
def OperandsOk (D : ℕ → List ℕ → ℕ → Prop) (b : ℕ) (pre : List ℕ) (I : Instr) : Prop :=
  (∀ x ∈ I.args, x.All (D b pre)) ∧ ∀ p ∈ I.incoming, p.2.All (D p.1 (F.ids p.1))

def BodyOk (D : ℕ → List ℕ → ℕ → Prop) (b : ℕ) : List ℕ → List Instr → Prop
  | _, [] => True
  | pre, I :: rest => F.OperandsOk D b pre I ∧ BodyOk D b (pre ++ [I.id]) rest

/-- The value is defined by an instruction that dominates the point of `b` behind `pre`. -/
def Available (b : ℕ) (pre : List ℕ) (v : ℕ) : Prop := F.cfg.Available F.ids b pre v

/-- **SSA validity: every operand of every instruction is available at its use.** -/
def Valid : Prop := ∀ b, F.BodyOk F.Available b [] (F.body b)

/-- `DominatorTree::dominates` of a definition over a use. -/
def Dominates (b : ℕ) (pre : List ℕ) (v : ℕ) : Prop :=
  v ∈ pre ∨ ∃ a ∈ F.blocks, v ∈ F.ids a ∧ b ∉ F.cfg.avoidSet a F.blocks.toFinset.card

instance (b : ℕ) (pre : List ℕ) (v : ℕ) : Decidable (F.Dominates b pre v) := by
  unfold Dominates
  infer_instance

instance (D : ℕ → List ℕ → ℕ → Prop) [∀ b pre, DecidablePred (D b pre)] (b : ℕ) (pre : List ℕ)
    (I : Instr) : Decidable (F.OperandsOk D b pre I) := by
  unfold OperandsOk
  infer_instance

instance decidableBodyOk (D : ℕ → List ℕ → ℕ → Prop) [∀ b pre, DecidablePred (D b pre)] (b : ℕ) :
    (pre : List ℕ) → (l : List Instr) → Decidable (F.BodyOk D b pre l)
  | _, [] => inferInstanceAs (Decidable True)
  | pre, I :: rest =>
      have := decidableBodyOk D b (pre ++ [I.id]) rest
      inferInstanceAs (Decidable (_ ∧ _))

/-- An edited function: the same control flow, and every instruction still in its block. -/
structure Extends (F F' : Func) : Prop where
  cfg_eq : F'.cfg = F.cfg
  heads : ∀ b, ∀ I ∈ F.body b, ∃ J ∈ F'.body b, J.id = I.id ∧ J.op = I.op

/-! ## Editing -/

/-- An `IRBuilder` at index `k` of block `b` inserts the instructions. -/
def insertAt (b k : ℕ) (new : List Instr) : Func :=
  { F with
    body := Function.update F.body b ((F.body b).take k ++ new ++ (F.body b).drop k)
    next := F.next + new.length }

/-- The operand `M` becomes `Sel` where the use is dominated. -/
def replaceOperand (M Sel : ℕ) (dominated : Prop) [Decidable dominated] (x : Operand) : Operand :=
  if x = .inst M ∧ dominated then .inst Sel else x

def replaceInstr (M Sel b : ℕ) (pre : List ℕ) (I : Instr) : Instr :=
  if I.id = Sel then I
  else
    { I with
      args := I.args.map (replaceOperand M Sel (F.Dominates b pre Sel))
      incoming := I.incoming.map fun p =>
        (p.1, replaceOperand M Sel (F.Dominates p.1 (F.ids p.1) Sel) p.2) }

def replaceFrom (M Sel b : ℕ) : List ℕ → List Instr → List Instr
  | _, [] => []
  | pre, I :: rest => F.replaceInstr M Sel b pre I :: replaceFrom M Sel b (pre ++ [I.id]) rest

/-- `M->replaceUsesWithIf(Sel, …)`: the uses by another user than `Sel` that `Sel` dominates. -/
def replaceUses (M Sel : ℕ) : Func :=
  { F with body := fun b => F.replaceFrom M Sel b [] (F.body b) }

variable {F} {F' : Func} {b k M Sel v : ℕ} {pre pre' : List ℕ} {new : List Instr}

theorem Extends.refl (F : Func) : F.Extends F :=
  ⟨rfl, fun _ I hI => ⟨I, hI, rfl, rfl⟩⟩

theorem Extends.trans {F'' : Func} (h : F.Extends F') (h' : F'.Extends F'') : F.Extends F'' := by
  refine ⟨h'.cfg_eq.trans h.cfg_eq, fun b I hI => ?_⟩
  obtain ⟨J, hJ, hid, hop⟩ := h.heads b I hI
  obtain ⟨J', hJ', hid', hop'⟩ := h'.heads b J hJ
  exact ⟨J', hJ', hid'.trans hid, hop'.trans hop⟩

theorem Extends.ids_subset (h : F.Extends F') (b : ℕ) : F.ids b ⊆ F'.ids b := by
  intro v hv
  obtain ⟨I, hI, rfl⟩ := List.mem_map.1 hv
  obtain ⟨J, hJ, hid, -⟩ := h.heads b I hI
  exact hid ▸ List.mem_map_of_mem hJ

/-! ## Looking up and dominance -/

theorem WellFormed.parent_eq (hF : F.WellFormed) {I : Instr} (hI : I ∈ F.body b) :
    F.parent I.id = some b := by
  have hid : I.id ∈ F.ids b := List.mem_map_of_mem hI
  unfold parent
  cases hfind : F.blocks.find? fun a => decide (I.id ∈ F.ids a) with
  | none =>
      have hnot := List.find?_eq_none.1 hfind b (hF.body_mem b I hI)
      exact absurd hid (of_decide_eq_false (by simpa using hnot))
  | some a =>
      have ha := List.find?_some hfind
      rw [hF.ids_block a b I.id (of_decide_eq_true ha) hid]

theorem WellFormed.parent_eq_of_extends (hF' : F'.WellFormed) (h : F.Extends F') {I : Instr}
    (hI : I ∈ F.body b) : F'.parent I.id = some b := by
  obtain ⟨J, hJ, hid, -⟩ := h.heads b I hI
  rw [← hid]
  exact hF'.parent_eq hJ

theorem WellFormed.eq_of_id (hF : F.WellFormed) {a : ℕ} {I J : Instr} (hI : I ∈ F.body a)
    (hJ : J ∈ F.body b) (hid : I.id = J.id) : I = J := by
  have hab : a = b :=
    hF.ids_block a b I.id (List.mem_map_of_mem hI) (hid ▸ List.mem_map_of_mem hJ)
  subst hab
  exact List.inj_on_of_nodup_map (hF.ids_nodup a) hI hJ hid

theorem WellFormed.instr_eq (hF : F.WellFormed) {I : Instr} (hI : I ∈ F.body b) :
    F.instr I.id = some I := by
  have hmem : I ∈ F.instructions := List.mem_flatMap.2 ⟨b, hF.body_mem b I hI, hI⟩
  unfold instr
  cases hfind : F.instructions.find? fun J => J.id == I.id with
  | none => exact absurd (List.find?_eq_none.1 hfind I hmem) (by simp)
  | some J =>
      obtain ⟨c, -, hJ⟩ := List.mem_flatMap.1 (List.mem_of_find?_eq_some hfind)
      have hid : J.id = I.id := by simpa using List.find?_some hfind
      rw [hF.eq_of_id hJ hI hid]

/-- Nothing follows a terminator. -/
theorem WellFormed.eq_nil_of_terminator (hF : F.WellFormed) {l rest : List Instr} {I : Instr}
    (hb : F.body b = l ++ I :: rest) (hI : I.op = .terminator) : rest = [] := by
  have hmem : I ∈ F.body b := hb ▸ List.mem_append_right _ (List.mem_cons_self ..)
  obtain ⟨q, T, hq, -, hqT⟩ := hF.terminated b (hF.body_mem b I hmem)
  by_contra hrest
  obtain ⟨r, U, rfl⟩ := (List.eq_nil_or_concat' rest).resolve_left hrest
  rw [hb, ← List.cons_append, ← List.append_assoc] at hq
  have hl := (List.append_inj' hq rfl).1
  exact hqT I (hl ▸ List.mem_append_right _ (List.mem_cons_self ..)) hI

theorem WellFormed.mem_blocks (hF : F.WellFormed) (hv : v ∈ F.ids b) : b ∈ F.blocks := by
  obtain ⟨I, hI, -⟩ := List.mem_map.1 hv
  exact hF.body_mem b I hI

theorem WellFormed.dominates_iff (hF : F.WellFormed) :
    F.Dominates b pre v ↔ F.Available b pre v := by
  have hmem : ∀ a, b ∈ F.cfg.avoidSet a F.blocks.toFinset.card ↔ F.cfg.Avoids a b := fun a =>
    Cfg.mem_avoidSet_iff (List.mem_toFinset.2 hF.entry_mem) fun c hc d hd =>
      List.mem_toFinset.2 (hF.succ_mem c (List.mem_toFinset.1 hc) d hd)
  refine or_congr_right (exists_congr fun a => ?_)
  rw [hmem]
  exact ⟨fun h => h.2, fun h => ⟨hF.mem_blocks h.1, h⟩⟩

/-- What makes a function well formed whose bodies are empty outside of its blocks. -/
def Checks (F : Func) : Prop :=
  F.cfg.entry ∈ F.blocks ∧ (∀ b ∈ F.blocks, ∀ c ∈ F.cfg.succ b, c ∈ F.blocks) ∧
    (F.instructions.map Instr.id).Nodup ∧
    (∀ I ∈ F.instructions, I.id < F.next ∧ (I.op ≠ .phi → I.incoming = [])) ∧
    ∀ b ∈ F.blocks, (F.body b).Pairwise (fun I J => J.op = .phi → I.op = .phi) ∧
      (∀ I ∈ (F.body b).dropLast, I.op ≠ .terminator) ∧
      (F.body b).getLast?.map Instr.op = some .terminator

instance (F : Func) : Decidable F.Checks := by
  unfold Checks
  infer_instance

theorem Checks.wellFormed (h : F.Checks) (hout : ∀ b, b ∉ F.blocks → F.body b = []) :
    F.WellFormed := by
  obtain ⟨hentry, hsucc, hids, hinstr, hblocks⟩ := h
  have hbody : ∀ b, ∀ I ∈ F.body b, b ∈ F.blocks := by
    intro b I hI
    by_contra hb
    rw [hout b hb] at hI
    cases hI
  have hmem : ∀ b, ∀ I ∈ F.body b, I ∈ F.instructions :=
    fun b I hI => List.mem_flatMap.2 ⟨b, hbody b I hI, hI⟩
  rw [instructions, List.map_flatMap, List.nodup_flatMap] at hids
  constructor
  · exact hentry
  · exact hsucc
  · exact hbody
  · intro b
    by_cases hb : b ∈ F.blocks
    · exact hids.1 b hb
    · rw [ids, hout b hb]
      exact List.nodup_nil
  · intro a b v ha hb
    obtain ⟨I, hI, rfl⟩ := List.mem_map.1 ha
    obtain ⟨J, hJ, hid⟩ := List.mem_map.1 hb
    by_contra hab
    have : Std.Symm (Function.onFun List.Disjoint fun a => (F.body a).map Instr.id) :=
      ⟨fun _ _ h => h.symm⟩
    exact hids.2.forall (hbody a I hI) (hbody b J hJ) hab ha hb
  · intro b v hv
    obtain ⟨I, hI, rfl⟩ := List.mem_map.1 hv
    exact (hinstr I (hmem b I hI)).1
  · intro b
    by_cases hb : b ∈ F.blocks
    · exact (hblocks b hb).1
    · rw [hout b hb]
      exact List.Pairwise.nil
  · intro b hb
    obtain ⟨-, hplain, hlast⟩ := hblocks b hb
    obtain ⟨T, hT, hop⟩ := Option.map_eq_some_iff.1 hlast
    exact ⟨_, T, (List.dropLast_append_getLast? T hT).symm, hop, hplain⟩
  · exact fun b I hI => (hinstr I (hmem b I hI)).2

/-! ## Bodies -/

theorem bodyOk_append {D : ℕ → List ℕ → ℕ → Prop} {l l' : List Instr} :
    F.BodyOk D b pre (l ++ l') ↔ F.BodyOk D b pre l ∧ F.BodyOk D b (pre ++ l.map Instr.id) l' := by
  induction l generalizing pre with
  | nil => simp [BodyOk]
  | cons I l ih =>
      simp only [List.cons_append, BodyOk, List.map_cons, ih, and_assoc, List.append_assoc,
        List.nil_append]

theorem Valid.available (hF : F.Valid) {l post : List Instr} {I : Instr}
    (hb : F.body b = l ++ I :: post) (hv : .inst v ∈ I.args) :
    F.Available b (l.map Instr.id) v := by
  have hbody := hF b
  rw [hb, bodyOk_append] at hbody
  exact hbody.2.1.1 _ hv

theorem OperandsOk.mono {I : Instr} {D D' : ℕ → List ℕ → ℕ → Prop} (h : F.OperandsOk D b pre I)
    (hargs : ∀ v, D b pre v → D' b pre' v)
    (hin : ∀ p v, D p (F.ids p) v → D' p (F'.ids p) v) : F'.OperandsOk D' b pre' I :=
  ⟨fun x hx => (h.1 x hx).mono hargs, fun p hp => (h.2 p hp).mono (hin p.1)⟩

/-- What is available stays available in an edited function. -/
theorem Available.extends (h : F.Available b pre v) (hext : F.Extends F') (hpre : pre ⊆ pre') :
    F'.Available b pre' v := by
  unfold Available
  rw [hext.cfg_eq]
  exact h.mono (fun a ha => hext.ids_subset a ha) fun ha => hpre ha

theorem BodyOk.extends {l : List Instr} (h : F.BodyOk F.Available b pre l) (hext : F.Extends F')
    (hpre : pre ⊆ pre') : F'.BodyOk F'.Available b pre' l := by
  induction l generalizing pre pre' with
  | nil => trivial
  | cons I l ih =>
      refine ⟨h.1.mono (fun v hv => hv.extends hext hpre)
        (fun p v hv => hv.extends hext (hext.ids_subset p)), ih h.2 ?_⟩
      exact List.append_subset.2 ⟨fun _ hx => List.mem_append_left _ (hpre hx),
        List.subset_append_right ..⟩

theorem WellFormed.valid_of_check (hF : F.WellFormed)
    (h : ∀ b ∈ F.blocks, F.BodyOk F.Dominates b [] (F.body b)) : F.Valid := by
  have hD : F.Dominates = F.Available := by
    funext b pre v
    exact propext hF.dominates_iff
  intro b
  by_cases hb : b ∈ F.blocks
  · exact hD ▸ h b hb
  · rw [List.eq_nil_iff_forall_not_mem.2 fun I hI => hb (hF.body_mem b I hI)]
    trivial

/-! ## Insertion -/

section

variable {l post : List Instr}

theorem insertAt_body (hb : F.body b = l ++ post) :
    (F.insertAt b l.length new).body b = l ++ new ++ post := by
  simp only [insertAt, Function.update_self, hb, List.take_left', List.drop_left']

theorem insertAt_body_ne {a : ℕ} (ha : a ≠ b) : (F.insertAt b k new).body a = F.body a :=
  Function.update_of_ne ha ..

theorem sublist_insertAt (a : ℕ) : (F.body a).Sublist ((F.insertAt b k new).body a) := by
  by_cases ha : a = b
  · subst ha
    simp only [insertAt, Function.update_self]
    conv_lhs => rw [← List.take_append_drop k (F.body a)]
    exact (List.sublist_append_left _ _).append (List.Sublist.refl _)
  · rw [insertAt_body_ne ha]

theorem extends_insertAt : F.Extends (F.insertAt b k new) :=
  ⟨rfl, fun a I hI => ⟨I, (sublist_insertAt a).subset hI, rfl, rfl⟩⟩

theorem mem_insertAt {a : ℕ} {I : Instr} (hI : I ∈ (F.insertAt b k new).body a) :
    I ∈ F.body a ∨ a = b ∧ I ∈ new := by
  by_cases ha : a = b
  · subst ha
    simp only [insertAt, Function.update_self, List.mem_append] at hI
    rcases hI with (hI | hI) | hI
    · exact Or.inl (List.mem_of_mem_take hI)
    · exact Or.inr ⟨rfl, hI⟩
    · exact Or.inl (List.mem_of_mem_drop hI)
  · rw [insertAt_body_ne ha] at hI
    exact Or.inl hI

/-- New instructions: numbered from the function's next id, and neither PHIs nor terminators. -/
structure Fresh (F : Func) (new : List Instr) : Prop where
  ids_eq : new.map Instr.id = List.range' F.next new.length
  not_phi : ∀ I ∈ new, I.op ≠ .phi
  not_terminator : ∀ I ∈ new, I.op ≠ .terminator
  incoming_eq : ∀ I ∈ new, I.incoming = []

theorem mem_ids_insertAt (hnew : F.Fresh new) {a : ℕ} (hv : v ∈ (F.insertAt b k new).ids a) :
    v ∈ F.ids a ∨ a = b ∧ F.next ≤ v ∧ v < F.next + new.length := by
  obtain ⟨I, hI, rfl⟩ := List.mem_map.1 hv
  refine (mem_insertAt hI).imp List.mem_map_of_mem fun h => ⟨h.1, ?_⟩
  have hid : I.id ∈ new.map Instr.id := List.mem_map_of_mem h.2
  rw [hnew.ids_eq] at hid
  simpa using hid

theorem nodup_insertAt (hF : F.WellFormed) (hnew : F.Fresh new) (hb : F.body b = l ++ post)
    (a : ℕ) : ((F.insertAt b l.length new).ids a).Nodup := by
  by_cases ha : a = b
  · subst ha
    -- the new ids lie at and above `next`, the old ones below it
    have hperm : (l ++ new ++ post).Perm (new ++ F.body a) := by
      rw [hb, List.append_assoc]
      exact List.perm_append_comm_assoc l new post
    rw [ids, insertAt_body hb, (hperm.map Instr.id).nodup_iff, List.map_append, hnew.ids_eq,
      List.nodup_append]
    refine ⟨List.nodup_range', hF.ids_nodup a, ?_⟩
    intro v hv w hw
    have hle := (List.mem_range'_1.1 hv).1
    have hlt := hF.fresh a w hw
    omega
  · rw [ids, insertAt_body_ne ha]
    exact hF.ids_nodup a

theorem phis_first_insertAt (hF : F.WellFormed) (hnew : F.Fresh new) (hb : F.body b = l ++ post)
    (hphi : ∀ I ∈ post, I.op ≠ .phi) (a : ℕ) :
    ((F.insertAt b l.length new).body a).Pairwise fun I J => J.op = .phi → I.op = .phi := by
  by_cases ha : a = b
  · subst ha
    have hold := hF.phis_first a
    rw [hb, List.pairwise_append] at hold
    rw [insertAt_body hb, List.pairwise_append, List.pairwise_append]
    refine ⟨⟨hold.1, ?_, ?_⟩, hold.2.1, ?_⟩
    · exact List.pairwise_of_forall_mem_list fun I _ J hJ h => absurd h (hnew.not_phi J hJ)
    · exact fun I _ J hJ h => absurd h (hnew.not_phi J hJ)
    · exact fun I _ J hJ h => absurd h (hphi J hJ)
  · rw [insertAt_body_ne ha]
    exact hF.phis_first a

theorem terminated_insertAt (hF : F.WellFormed) (hnew : F.Fresh new) (hb : F.body b = l ++ post)
    (hpost : post ≠ []) {a : ℕ} (ha : a ∈ F.blocks) :
    ∃ q T, (F.insertAt b l.length new).body a = q ++ [T] ∧ T.op = .terminator ∧
      ∀ I ∈ q, I.op ≠ .terminator := by
  obtain ⟨q, T, hq, hT, hqT⟩ := hF.terminated a ha
  by_cases hab : a = b
  · subst hab
    obtain ⟨r, U, rfl⟩ := (List.eq_nil_or_concat' post).resolve_left hpost
    rw [hb, ← List.append_assoc] at hq
    obtain ⟨rfl, hU⟩ := List.append_inj' hq rfl
    obtain rfl := List.head_eq_of_cons_eq hU
    refine ⟨l ++ new ++ r, U, by rw [insertAt_body hb, List.append_assoc (l ++ new)], hT, ?_⟩
    intro I hI
    rw [List.mem_append, List.mem_append] at hI
    rcases hI with (hI | hI) | hI
    · exact hqT I (List.mem_append_left r hI)
    · exact hnew.not_terminator I hI
    · exact hqT I (List.mem_append_right l hI)
  · exact ⟨q, T, by rw [insertAt_body_ne hab, hq], hT, hqT⟩

/-- Instructions may be inserted anywhere behind the PHIs and before the terminator. -/
theorem WellFormed.insertAt (hF : F.WellFormed) (hnew : F.Fresh new) (hb : F.body b = l ++ post)
    (hphi : ∀ I ∈ post, I.op ≠ .phi) (hpost : post ≠ []) :
    (F.insertAt b l.length new).WellFormed where
  entry_mem := hF.entry_mem
  succ_mem := hF.succ_mem
  body_mem := by
    intro a I hI
    rcases mem_insertAt hI with hI | ⟨rfl, -⟩
    · exact hF.body_mem a I hI
    · obtain ⟨J, hJ⟩ := List.exists_mem_of_ne_nil post hpost
      exact hF.body_mem a J (hb ▸ List.mem_append_right l hJ)
  ids_nodup := nodup_insertAt hF hnew hb
  ids_block := by
    intro a c v ha hc
    rcases mem_ids_insertAt hnew ha with ha' | ⟨rfl, ha'⟩ <;>
      rcases mem_ids_insertAt hnew hc with hc' | ⟨rfl, hc'⟩
    · exact hF.ids_block a c v ha' hc'
    · have hlt := hF.fresh a v ha'
      omega
    · have hlt := hF.fresh c v hc'
      omega
    · rfl
  fresh := by
    intro a v ha
    show v < F.next + new.length
    rcases mem_ids_insertAt hnew ha with ha | ⟨-, -, hlt⟩
    · have hlt := hF.fresh a v ha
      omega
    · exact hlt
  phis_first := phis_first_insertAt hF hnew hb hphi
  terminated := fun _ => terminated_insertAt hF hnew hb hpost
  incoming_phi := by
    intro a I hI hop
    rcases mem_insertAt hI with hI | ⟨-, hI⟩
    · exact hF.incoming_phi a I hI hop
    · exact hnew.incoming_eq I hI

/-- **Inserting instructions whose operands are available keeps a function valid.** -/
theorem Valid.insertAt (hF : F.Valid) (hb : F.body b = l ++ post)
    (hnew : (F.insertAt b l.length new).BodyOk (F.insertAt b l.length new).Available b
      (l.map Instr.id) new) : (F.insertAt b l.length new).Valid := by
  intro a
  by_cases ha : a = b
  · subst ha
    have hold := hF a
    rw [hb, bodyOk_append] at hold
    rw [insertAt_body hb, bodyOk_append, bodyOk_append]
    refine ⟨⟨hold.1.extends extends_insertAt (List.Subset.refl _), hnew⟩, ?_⟩
    refine hold.2.extends extends_insertAt ?_
    rw [List.map_append]
    exact List.subset_append_left ..
  · rw [insertAt_body_ne ha]
    exact (hF a).extends extends_insertAt (List.Subset.refl _)

end

/-! ## Replacing uses -/

theorem replaceInstr_id (I : Instr) : (F.replaceInstr M Sel b pre I).id = I.id := by
  unfold replaceInstr
  split <;> rfl

theorem replaceInstr_op (I : Instr) : (F.replaceInstr M Sel b pre I).op = I.op := by
  unfold replaceInstr
  split <;> rfl

/-- An operand other than the replaced value stays. -/
theorem replaceOperand_of_ne {dominated : Prop} [Decidable dominated] {x : Operand}
    (hx : x ≠ .inst M) : replaceOperand M Sel dominated x = x :=
  if_neg fun h => hx h.1

theorem mem_args_replaceInstr {I : Instr} {x : Operand} (hx : x ∈ I.args) (hM : x ≠ .inst M) :
    x ∈ (F.replaceInstr M Sel b pre I).args := by
  unfold replaceInstr
  split
  · exact hx
  · exact List.mem_map.2 ⟨x, hx, replaceOperand_of_ne hM⟩

theorem args_replaceInstr {I : Instr} (hM : .inst M ∉ I.args) :
    (F.replaceInstr M Sel b pre I).args = I.args := by
  unfold replaceInstr
  split
  · rfl
  · exact (List.map_congr_left fun x hx => replaceOperand_of_ne fun h => hM (h ▸ hx)).trans
      (List.map_id _)

theorem mem_replaceFrom_split {l : List Instr} {J : Instr} (hJ : J ∈ F.replaceFrom M Sel b pre l) :
    ∃ l₁ I l₂, l = l₁ ++ I :: l₂ ∧ J = F.replaceInstr M Sel b (pre ++ l₁.map Instr.id) I := by
  induction l generalizing pre with
  | nil => cases hJ
  | cons I l ih =>
      rcases List.mem_cons.1 hJ with rfl | hJ
      · exact ⟨[], I, l, rfl, by rw [List.map_nil, List.append_nil]⟩
      · obtain ⟨l₁, I', l₂, rfl, rfl⟩ := ih hJ
        exact ⟨I :: l₁, I', l₂, rfl, by rw [List.map_cons, List.append_assoc, List.singleton_append]⟩

theorem mem_replaceFrom {l : List Instr} {J : Instr} (hJ : J ∈ F.replaceFrom M Sel b pre l) :
    ∃ I ∈ l, ∃ q, J = F.replaceInstr M Sel b q I := by
  obtain ⟨l₁, I, l₂, rfl, rfl⟩ := mem_replaceFrom_split hJ
  exact ⟨I, List.mem_append_right l₁ (List.mem_cons_self ..), _, rfl⟩

/-- Instructions in some order are replaced one by one and stay in that order. -/
theorem sublist_replaceFrom {s l : List Instr} (h : s.Sublist l) :
    ∃ s', s'.Sublist (F.replaceFrom M Sel b pre l) ∧
      List.Forall₂ (fun I J => ∃ q, J = F.replaceInstr M Sel b q I) s s' := by
  induction h generalizing pre with
  | slnil => exact ⟨[], .slnil, .nil⟩
  | cons I _ ih =>
      obtain ⟨s', hs', hrel⟩ := @ih (pre ++ [I.id])
      exact ⟨s', hs'.cons _, hrel⟩
  | cons_cons I _ ih =>
      obtain ⟨s', hs', hrel⟩ := @ih (pre ++ [I.id])
      exact ⟨_ :: s', hs'.cons_cons _, hrel.cons ⟨pre, rfl⟩⟩

theorem map_replaceFrom {α : Type} (f : Instr → α) (l : List Instr)
    (hf : ∀ q I, f (F.replaceInstr M Sel b q I) = f I) :
    (F.replaceFrom M Sel b pre l).map f = l.map f := by
  induction l generalizing pre with
  | nil => rfl
  | cons I l ih => rw [replaceFrom, List.map_cons, List.map_cons, hf, ih]

theorem ids_replaceUses : (F.replaceUses M Sel).ids = F.ids := by
  funext b
  exact map_replaceFrom Instr.id _ fun _ => replaceInstr_id

theorem extends_replaceUses : F.Extends (F.replaceUses M Sel) := by
  refine ⟨rfl, fun a I hI => ?_⟩
  have hmem : (I.id, I.op) ∈ ((F.replaceUses M Sel).body a).map fun I => (I.id, I.op) := by
    rw [show ((F.replaceUses M Sel).body a).map (fun I => (I.id, I.op)) = _ from
      map_replaceFrom _ (F.body a) fun _ _ => Prod.ext (replaceInstr_id _) (replaceInstr_op _)]
    exact List.mem_map_of_mem hI
  obtain ⟨J, hJ, hIJ⟩ := List.mem_map.1 hmem
  exact ⟨J, hJ, congrArg Prod.fst hIJ, congrArg Prod.snd hIJ⟩

theorem replaceFrom_append (l l' : List Instr) :
    F.replaceFrom M Sel b pre (l ++ l') =
      F.replaceFrom M Sel b pre l ++ F.replaceFrom M Sel b (pre ++ l.map Instr.id) l' := by
  induction l generalizing pre with
  | nil => simp [replaceFrom]
  | cons I l ih =>
      simp only [List.cons_append, replaceFrom, ih, List.map_cons, List.append_assoc,
        List.nil_append]

theorem terminated_replaceUses (hF : F.WellFormed) (hb : b ∈ F.blocks) :
    ∃ q T, (F.replaceUses M Sel).body b = q ++ [T] ∧ T.op = .terminator ∧
      ∀ I ∈ q, I.op ≠ .terminator := by
  obtain ⟨q, T, hq, hT, hqT⟩ := hF.terminated b hb
  refine ⟨F.replaceFrom M Sel b [] q, F.replaceInstr M Sel b (q.map Instr.id) T, ?_,
    (replaceInstr_op T).trans hT, ?_⟩
  · show F.replaceFrom M Sel b [] (F.body b) = _
    rw [hq, replaceFrom_append]
    rfl
  · intro J hJ
    obtain ⟨I, hI, p, rfl⟩ := mem_replaceFrom hJ
    rw [replaceInstr_op]
    exact hqT I hI

theorem WellFormed.replaceUses (hF : F.WellFormed) : (F.replaceUses M Sel).WellFormed where
  entry_mem := hF.entry_mem
  succ_mem := hF.succ_mem
  body_mem := by
    intro b J hJ
    obtain ⟨I, hI, -⟩ := mem_replaceFrom hJ
    exact hF.body_mem b I hI
  ids_nodup := by
    rw [ids_replaceUses]
    exact hF.ids_nodup
  ids_block := by
    rw [ids_replaceUses]
    exact hF.ids_block
  fresh := by
    rw [ids_replaceUses]
    exact hF.fresh
  phis_first := by
    intro b
    have hops : ((F.replaceUses M Sel).body b).map Instr.op = (F.body b).map Instr.op :=
      map_replaceFrom Instr.op (F.body b) fun _ => replaceInstr_op
    have hphis := hF.phis_first b
    rw [← List.pairwise_map (f := Instr.op) (R := fun o o' => o' = .phi → o = .phi)] at hphis ⊢
    exact hops ▸ hphis
  terminated := fun _ => terminated_replaceUses hF
  incoming_phi := by
    intro b J hJ hop
    obtain ⟨I, hI, q, rfl⟩ := mem_replaceFrom hJ
    rw [replaceInstr_op] at hop
    have hnil := hF.incoming_phi b I hI hop
    unfold Func.replaceInstr
    split
    · exact hnil
    · simp only [hnil, List.map_nil]

theorem replaceOperand_eq_inst {dominated : Prop} [Decidable dominated] {y : Operand} :
    replaceOperand M Sel dominated y = .inst v ↔
      y = .inst v ∧ ¬(v = M ∧ dominated) ∨ v = Sel ∧ y = .inst M ∧ dominated := by
  unfold replaceOperand
  split
  · next h =>
      rw [h.1, Operand.inst.injEq, Operand.inst.injEq]
      have hdom := h.2
      grind
  · next h => grind

theorem uses_replaceInstr_iff {I : Instr} (hne : I.id ≠ Sel) :
    (F.replaceInstr M Sel b pre I).uses v = true ↔
      (∃ y ∈ I.args, replaceOperand M Sel (F.Dominates b pre Sel) y = .inst v) ∨
        ∃ p ∈ I.incoming, replaceOperand M Sel (F.Dominates p.1 (F.ids p.1) Sel) p.2 = .inst v := by
  rw [replaceInstr, if_neg hne, Instr.uses_iff_mem]
  simp only [List.mem_map, exists_exists_and_eq_and]

/-- Where the new value dominates every use of the old one, the old one loses all users but the new. -/
theorem not_uses_replaceInstr {I : Instr} (hne : I.id ≠ Sel) (hMS : M ≠ Sel)
    (hargs : .inst M ∈ I.args → F.Dominates b pre Sel)
    (hin : ∀ p ∈ I.incoming, p.2 = .inst M → F.Dominates p.1 (F.ids p.1) Sel) :
    (F.replaceInstr M Sel b pre I).uses M = false := by
  have hoperand : ∀ (y : Operand) (dominated : Prop) [Decidable dominated],
      (y = .inst M → dominated) → replaceOperand M Sel dominated y ≠ .inst M := by
    intro y dominated _ hdom hy
    rcases replaceOperand_eq_inst.1 hy with ⟨hyM, hnot⟩ | ⟨hSel, -⟩
    · exact hnot ⟨rfl, hdom hyM⟩
    · exact hMS hSel
  rw [← Bool.not_eq_true]
  intro huses
  rcases (uses_replaceInstr_iff hne).1 huses with ⟨y, hy, hyM⟩ | ⟨p, hp, hpM⟩
  · exact hoperand y _ (fun h => hargs (h ▸ hy)) hyM
  · exact hoperand p.2 _ (hin p hp) hpM

theorem Operand.All.replace {P : ℕ → Prop} {dominated : Prop} [Decidable dominated] {x : Operand}
    (hx : x.All P) (hSel : dominated → P Sel) : (replaceOperand M Sel dominated x).All P := by
  unfold replaceOperand
  split
  · next h => exact hSel h.2
  · exact hx

theorem OperandsOk.replaceInstr {D : ℕ → List ℕ → ℕ → Prop} {I : Instr}
    (hD : ∀ b pre, F.Dominates b pre Sel → D b pre Sel) (h : F.OperandsOk D b pre I) :
    F.OperandsOk D b pre (F.replaceInstr M Sel b pre I) := by
  unfold Func.replaceInstr
  split
  · exact h
  · constructor
    · intro y hy
      obtain ⟨x, hx, rfl⟩ := List.mem_map.1 hy
      exact Operand.All.replace (h.1 x hx) (hD b pre)
    · intro q hq
      obtain ⟨p, hp, rfl⟩ := List.mem_map.1 hq
      exact Operand.All.replace (h.2 p hp) (hD p.1 (F.ids p.1))

/-- **Handing the dominated uses of a value to another value keeps a function valid.** -/
theorem Valid.replaceUses (hF : F.Valid) (hwf : F.WellFormed) : (F.replaceUses M Sel).Valid := by
  have hids : (F.replaceUses M Sel).ids = F.ids := ids_replaceUses
  have hbody : ∀ {b pre l}, F.BodyOk F.Available b pre l →
      (F.replaceUses M Sel).BodyOk F.Available b pre (F.replaceFrom M Sel b pre l) := by
    intro b pre l h
    induction l generalizing pre with
    | nil => trivial
    | cons I l ih =>
        have hI : F.OperandsOk F.Available b pre (F.replaceInstr M Sel b pre I) :=
          h.1.replaceInstr fun _ _ => hwf.dominates_iff.1
        refine ⟨⟨hI.1, hids ▸ hI.2⟩, ?_⟩
        rw [replaceInstr_id]
        exact ih h.2
  intro b
  have havail : (F.replaceUses M Sel).Available = F.Available := by
    unfold Available
    rw [hids]
    rfl
  rw [havail]
  exact hbody (hF b)

end Func

end SchedPass
