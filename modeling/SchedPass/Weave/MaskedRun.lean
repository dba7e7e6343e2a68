import Mathlib.Order.WithBot
import SchedPass.Weave.LoopRun
import SchedPass.Weave.Policy
import SchedPass.Weave.ShedMasks

set_option autoImplicit false

/-! # Iterations under masks

A turn of `emitShedAll` puts a select in the place of what it masks: behind all turns an operand `x` is
read as its stand-in `standIns x` (`Turns.mapInst_mem_foldl`). So the values of an iteration of the woven
function, read through the stand-ins, solve the equations of the function that was woven, except that a
masked value may be the dropped one; and it is the dropped one if the counter that it is masked with has
reached the budget (`Turns.solves`). -/

namespace SchedPass

/-! ## Reading other values -/

theorem Operand.all_of_eq {P : ℕ → Prop} {x : Operand} (h : ∀ v, x = .inst v → P v) : x.All P := by
  cases x with
  | inst v => exact h v rfl
  | _ => trivial

def Operand.mapInst (f : ℕ → ℕ) : Operand → Operand
  | .inst v => .inst (f v)
  | x => x

/-- The instruction with other values for its operands. -/
def Instr.mapInst (f : ℕ → ℕ) (I : Instr) : Instr :=
  { I with
    args := I.args.map (Operand.mapInst f)
    incoming := I.incoming.map fun p => (p.1, p.2.mapInst f) }

theorem Operand.look_mapInst {V : Type} (f : ℕ → ℕ) (const : Operand → V) (vals : ℕ → V)
    (x : Operand) : (x.mapInst f).look const vals = x.look const (vals ∘ f) := by
  cases x <;> rfl

theorem Operand.mapInst_mapInst (f g : ℕ → ℕ) (x : Operand) :
    (x.mapInst f).mapInst g = x.mapInst (g ∘ f) := by
  cases x <;> rfl

theorem Operand.mapInst_id (x : Operand) : x.mapInst (fun v => v) = x := by
  cases x <;> rfl

theorem Instr.mapInst_mapInst (f g : ℕ → ℕ) (I : Instr) :
    (I.mapInst f).mapInst g = I.mapInst (g ∘ f) := by
  simp only [mapInst, List.map_map]
  congr 2
  · exact funext (Operand.mapInst_mapInst f g)
  · exact funext fun p => Prod.ext rfl (Operand.mapInst_mapInst f g p.2)

theorem Instr.mapInst_id (I : Instr) : I.mapInst (fun v => v) = I := by
  have hid : Operand.mapInst (fun v => v) = fun x => x := funext Operand.mapInst_id
  simp [mapInst, hid]

theorem Instr.getIncomingValueForBlock_mapInst (f : ℕ → ℕ) (I : Instr) (q : ℕ) :
    (I.mapInst f).getIncomingValueForBlock q =
      (I.getIncomingValueForBlock q).map (Operand.mapInst f) := by
  simp only [getIncomingValueForBlock, mapInst, List.find?_map, Option.map_map]
  rfl

/-- Where every instruction of `F` is one of `F'` with other values for its operands, a solution for `F'`,
    read through them, is one for `F`. -/
theorem Func.Solves.of_mapInst {V : Type} {F F' : Func} {const : Operand → V}
    {R R' : ℕ → Opcode → List V → V → Prop} {path : List ℕ} {ρ : ℕ → V} {f : ℕ → ℕ}
    (h : F'.Solves const R path ρ) (hmem : ∀ b, ∀ I ∈ F.body b, I.mapInst f ∈ F'.body b)
    (hphi : ∀ b, ∀ I ∈ F.body b, I.op = .phi → f I.id = I.id)
    (hR : ∀ b ∈ path, ∀ I ∈ F.body b, I.op ≠ .phi → I.op ≠ .terminator → ∀ vs,
      R I.id I.op vs (ρ I.id) → R' I.id I.op vs (ρ (f I.id))) :
    F.Solves const R' path (ρ ∘ f) := by
  constructor
  · intro b hb I hI hIphi hop
    have hval := h.value b hb _ (hmem b I hI) hIphi hop
    have hargs : (I.mapInst f).args.map (Operand.look const ρ) =
        I.args.map (Operand.look const (ρ ∘ f)) := by
      rw [Instr.mapInst, List.map_map]
      exact List.map_congr_left fun x _ => Operand.look_mapInst f const ρ x
    rw [hargs] at hval
    exact hR b hb I hI hIphi hop _ hval
  · intro p q b r hpath I hI hop x hx
    have hval := h.phi p q b r hpath _ (hmem b I hI) hop (x.mapInst f) (by
      rw [Instr.getIncomingValueForBlock_mapInst, hx]
      rfl)
    rw [Operand.look_mapInst] at hval
    rw [Function.comp_apply, hphi b I hI hop]
    exact hval

/-! ## Values -/

/-- A floating-point value is a number or `-∞`; integers are below a power of two. -/
inductive Value (𝕜 : Type)
  | fp (x : WithBot 𝕜)
  | int (n : ℕ)
  deriving DecidableEq

/-- What the instructions of the masks and of their counters give. -/
def maskOp {𝕜 : Type} : Opcode → List (Value 𝕜) → Value 𝕜
  | .icmp true, [.int a, .int b] => .int (if a < b then 1 else 0)
  | .select, [.int 0, _, dropped] => dropped
  | .select, [_, v, _] => v
  | .cast .trunc, [.int n] => .int (n % 2 ^ 32)
  | .cast .zext, [v] => v
  | _, _ => .int 0

/-- The operands that are no instruction's, and what the instructions of a function may make of their
    operands. -/
structure Arith (𝕜 : Type) [Zero 𝕜] where
  const : Operand → Value 𝕜
  may : ℕ → List (Value 𝕜) → Value 𝕜 → Prop
  fpZero : const .fpZero = .fp (0 : 𝕜)
  fpNegInf : const .fpNegInf = .fp ⊥

/-- The same with the instructions from id `n` on being those of masks and counters. -/
def Arith.gives {𝕜 : Type} [Zero 𝕜] (Φ : Arith 𝕜) (n id : ℕ) (op : Opcode) (vs : List (Value 𝕜))
    (v : Value 𝕜) : Prop :=
  if id < n then Φ.may id vs v else v = maskOp op vs

theorem maskOp_select {𝕜 : Type} (c v dropped : Value 𝕜) :
    maskOp .select [c, v, dropped] = v ∨ maskOp .select [c, v, dropped] = dropped := by
  unfold maskOp
  split <;> simp_all

/-- The counter of a canonical induction variable of `width` bits that is `k`. -/
def coerced (width k : ℕ) : ℕ := if 32 < width then k % 2 ^ 32 else k

theorem coerced_mod (width i : ℕ) : coerced width (i % 2 ^ width) = shedCounter width i := by
  unfold coerced shedCounter
  split
  · rfl
  · next hw =>
      have hlt := Nat.mod_lt i (Nat.two_pow_pos width)
      have hle := Nat.pow_le_pow_right Nat.two_pos (not_lt.1 hw)
      exact (Nat.mod_eq_of_lt (hlt.trans_le hle)).symm

namespace Analyses

open Func

variable (A : Analyses) (Softmax : Bool) (Budget : Operand)

/-! ## What stands in for a value -/

/-- What is read for `x` behind the turn of the site `Ld`: the select, if it is `x` that is masked. -/
def standIn (F : Func) (Ld x : ℕ) : ℕ :=
  if (A.shedMask Softmax F Ld).map ShedMask.target = some x then
    (A.emitShedSite Softmax Budget F Ld).next - 1
  else x

/-- What is read for `x` behind all turns. -/
def standIns : Func → List ℕ → ℕ → ℕ
  | _, [] => id
  | F, Ld :: todo =>
      standIns (A.emitShedSite Softmax Budget F Ld) todo ∘ A.standIn Softmax Budget F Ld

/-- A turn masks `x`, or what by then stands in for it, with such a mask. -/
def Masked (p : ShedMask → Prop) : Func → List ℕ → ℕ → Prop
  | _, [], _ => False
  | F, Ld :: todo, x =>
      (∃ m, A.shedMask Softmax F Ld = some m ∧ m.target = x ∧ p m) ∨
        Masked p (A.emitShedSite Softmax Budget F Ld) todo (A.standIn Softmax Budget F Ld x)

variable {A Softmax Budget} {F : Func} {Sites todo : List ℕ} {Ld M Ctr b x : ℕ} {dropped : Operand}

/-! ## One mask -/

theorem replaceInstr_eq_self {M Sel : ℕ} {pre : List ℕ} {I : Instr} (hargs : .inst M ∉ I.args)
    (hin : I.incoming = []) : F.replaceInstr M Sel b pre I = I := by
  have heq : (F.replaceInstr M Sel b pre I).args = I.args := args_replaceInstr hargs
  unfold replaceInstr at heq ⊢
  split
  · rfl
  · next hne =>
      rw [if_neg hne] at heq
      simp only [hin, List.map_nil] at heq ⊢
      rw [heq, ← hin]

/-- An operand that is not left as it was has become the select. -/
theorem replaceOperand_eq_mapInst {M Sel : ℕ} {dominated : Prop} [Decidable dominated] {y : Operand}
    (h : replaceOperand M Sel dominated y ≠ .inst M) :
    replaceOperand M Sel dominated y = y.mapInst fun v => if v = M then Sel else v := by
  unfold replaceOperand at h ⊢
  split at h
  · next hy => rw [if_pos hy, hy.1, Operand.mapInst, if_pos rfl]
  · next hy =>
      rw [if_neg hy]
      cases y with
      | inst v =>
          rw [Operand.mapInst, if_neg]
          rintro rfl
          exact h rfl
      | _ => rfl

theorem replaceInstr_mem (M Sel : ℕ) {I : Instr} (hI : I ∈ F.body b) :
    ∃ q, F.replaceInstr M Sel b q I ∈ (F.replaceUses M Sel).body b := by
  obtain ⟨l, post, hb⟩ := List.append_of_mem hI
  refine ⟨l.map Instr.id, ?_⟩
  show _ ∈ F.replaceFrom M Sel b [] (F.body b)
  rw [hb, replaceFrom_append]
  exact List.mem_append_right _ (List.mem_cons_self ..)

section

variable (hF : F.WellFormed) (hV : F.Valid) (hM : Computed F M) (hCtr : Ctr ≠ M)
  (hBudget : Budget ≠ .inst M)

include hF hV hM hCtr hBudget

/-- Every instruction is still there behind a mask, with the select for the masked value. -/
theorem mapInst_mem_emitMask {I : Instr} (hI : I ∈ F.body b) :
    I.mapInst (fun v => if v = M then F.next + 1 else v) ∈
      (F.emitMask M Ctr Budget dropped).body b := by
  obtain ⟨c, k, heq⟩ := emitMask_computed Ctr Budget dropped hF hM
  have hlt := hF.fresh b I.id (List.mem_map_of_mem hI)
  have hne : I.id ≠ F.next + 1 := by omega
  have hI' : I ∈ (F.insertAt c k [F.Keep Ctr Budget, F.Sel M dropped]).body b :=
    (sublist_insertAt b).subset hI
  obtain ⟨q, hJ⟩ := replaceInstr_mem M (F.next + 1) hI'
  have hM' := not_uses_emitMask hF hV hM hCtr hBudget (heq ▸ hJ) (by rwa [replaceInstr_id])
  rw [heq]
  convert hJ using 1
  rw [← Bool.not_eq_true, Instr.uses_iff_mem, not_or] at hM'
  rw [replaceInstr, if_neg hne] at hM' ⊢
  rw [Instr.mapInst]
  congr 1
  · refine List.map_congr_left fun y hy => (replaceOperand_eq_mapInst fun hyM => ?_).symm
    exact hM'.1 (List.mem_map.2 ⟨y, hy, hyM⟩)
  · refine List.map_congr_left fun p hp => ?_
    rw [replaceOperand_eq_mapInst fun hpM => ?_]
    exact hM'.2 ⟨_, List.mem_map.2 ⟨p, hp, rfl⟩, hpM⟩

omit hV in
variable (dropped) in
/-- The compare and the select of a mask stand in the block of what is masked. -/
theorem mask_mem_emitMask (hMb : M ∈ F.ids b) :
    F.Keep Ctr Budget ∈ (F.emitMask M Ctr Budget dropped).body b ∧
      F.Sel M dropped ∈ (F.emitMask M Ctr Budget dropped).body b := by
  obtain ⟨c, l, I, post, hb, rfl, -, ⟨r, T, rfl⟩, -⟩ := hM.split hF
  have hI : I.id ∈ F.ids c :=
    List.mem_map_of_mem (hb ▸ List.mem_append_right l (List.mem_cons_self ..))
  obtain rfl := hF.ids_block b c I.id hMb hI
  have hpost : r ++ [T] ≠ [] := List.concat_ne_nil T r
  rw [emitMask_eq hF hb hpost]
  have hnew : ∀ J ∈ [F.Keep Ctr Budget, F.Sel I.id dropped],
      J ∈ (F.insertAt b (l ++ [I]).length [F.Keep Ctr Budget, F.Sel I.id dropped]).body b := by
    intro J hJ
    rw [insertAt_body (by rw [hb, List.append_cons])]
    exact List.mem_append_left _ (List.mem_append_right _ hJ)
  constructor
  · obtain ⟨q, hJ⟩ := replaceInstr_mem I.id (F.next + 1) (hnew _ (List.mem_cons_self ..))
    rwa [replaceInstr_eq_self (by simp [Keep, hCtr.symm, hBudget.symm]) rfl] at hJ
  · obtain ⟨q, hJ⟩ := replaceInstr_mem I.id (F.next + 1) (hnew (F.Sel I.id dropped) (by simp))
    have hSel : (F.Sel I.id dropped).id = F.next + 1 := rfl
    rwa [replaceInstr, if_pos hSel] at hJ

end

/-! ## One turn -/

/-- What a turn does not mask stands in for itself. -/
theorem standIn_of_ne (hx : ∀ m, A.shedMask Softmax F Ld = some m → m.target ≠ x) :
    A.standIn Softmax Budget F Ld x = x := by
  refine if_neg fun h => ?_
  obtain ⟨m, hm, htarget⟩ := Option.map_eq_some_iff.1 h
  exact hx m hm htarget

section

variable (h : A.SiteInput F Sites Budget) (hV : F.Valid) (hLd : Ld ∈ Sites)

include h hV hLd

/-- The select of a turn's mask is the last instruction that the turn inserts. -/
theorem standIn_eq {m : ShedMask} {iv : ℕ} (hm : A.shedMask Softmax F Ld = some m)
    (hiv : A.getCanonicalInductionVariable F m.loop = some iv) :
    A.standIn Softmax Budget F Ld = fun v =>
      if v = m.target then (F.coerceIV m.loop iv).2.next + 1 else v := by
  obtain ⟨P, hP, hop, hIV, hcomp, -, heq, -⟩ := emitShedSite_of_shedMask h hV hLd hm
  obtain rfl := Option.some.inj (hiv.symm.trans hIV)
  have hF₁ := wellFormed_coerceIV h.wellFormed hP hop
  obtain ⟨b, k, hmask⟩ := emitMask_computed (F.coerceIV m.loop P.id).1 Budget m.dropped hF₁
    ((keeps_coerceIV m.loop P.id).computed hcomp)
  funext x
  rw [standIn, hm, Option.map_some, heq, hmask]
  simp only [Option.some.injEq, eq_comm]
  rfl

/-- **A turn keeps every instruction, with the stand-ins for its operands.** -/
theorem mapInst_mem_emitShedSite {I : Instr} (hI : I ∈ F.body b) :
    I.mapInst (A.standIn Softmax Budget F Ld) ∈ (A.emitShedSite Softmax Budget F Ld).body b := by
  cases hm : A.shedMask Softmax F Ld with
  | none =>
      have hself : A.standIn Softmax Budget F Ld = fun v => v :=
        funext fun _ => standIn_of_ne fun m hm' => by rw [hm] at hm'; cases hm'
      rw [hself, Instr.mapInst_id]
      exact (sublist_of_shedMask_none h.toShedInput hLd hm b).subset hI
  | some m =>
      obtain ⟨P, hP, hop, hIV, hcomp, -, heq, hCtr, hBudget⟩ := emitShedSite_of_shedMask h hV hLd hm
      rw [standIn_eq h hV hLd hm hIV, heq]
      exact mapInst_mem_emitMask (wellFormed_coerceIV h.wellFormed hP hop)
        (valid_coerceIV h.wellFormed hV hP hop) ((keeps_coerceIV m.loop P.id).computed hcomp) hCtr
        hBudget ((sublist_coerceIV m.loop P.id b).subset hI)

end

/-! ## The turns to come -/

variable (A Softmax Budget Sites) in
/-- A valid function whose remaining sites `todo` find their counters first. -/
structure Turns (F : Func) (todo : List ℕ) : Prop where
  input : A.SiteInput F Sites Budget
  valid : F.Valid
  sites : todo ⊆ Sites
  first : A.CountersFirst Softmax Budget F todo

theorem Masked.mono {p q : ShedMask → Prop}
    (hpq : ∀ m ∈ A.shedMasks Softmax Budget F todo, p m → q m)
    (hx : A.Masked Softmax Budget p F todo x) : A.Masked Softmax Budget q F todo x := by
  induction todo generalizing F x with
  | nil => exact hx
  | cons Ld todo ih =>
      simp only [shedMasks, List.mem_append, Option.mem_toList] at hpq
      rcases hx with ⟨m, hm, rfl, hp⟩ | hx
      · exact Or.inl ⟨m, hm, rfl, hpq m (Or.inl hm) hp⟩
      · exact Or.inr (ih (fun m hm => hpq m (Or.inr hm)) hx)

theorem Masked.exists_mem {p : ShedMask → Prop} (hx : A.Masked Softmax Budget p F todo x) :
    ∃ m ∈ A.shedMasks Softmax Budget F todo, p m := by
  induction todo generalizing F x with
  | nil => exact hx.elim
  | cons Ld todo ih =>
      simp only [shedMasks, List.mem_append, Option.mem_toList]
      rcases hx with ⟨m, hm, -, hp⟩ | hx
      · exact ⟨m, Or.inl hm, hp⟩
      · obtain ⟨m, hm, hp⟩ := ih hx
        exact ⟨m, Or.inr hm, hp⟩

namespace Turns

variable {p : ShedMask → Prop} {m : ShedMask} {I : Instr}

theorem mem (h : A.Turns Softmax Budget Sites F (Ld :: todo)) : Ld ∈ Sites :=
  h.sites (List.mem_cons_self ..)

theorem next (h : A.Turns Softmax Budget Sites F (Ld :: todo)) :
    A.Turns Softmax Budget Sites (A.emitShedSite Softmax Budget F Ld) todo where
  input := h.input.emitShedSite h.mem
  valid := emitShedSite_valid h.input.toShedInput h.valid h.mem h.first.1
  sites := fun _ hx => h.sites (List.mem_cons_of_mem Ld hx)
  first := h.first.2

theorem mapInst_mem (h : A.Turns Softmax Budget Sites F (Ld :: todo)) (hI : I ∈ F.body b) :
    I.mapInst (A.standIn Softmax Budget F Ld) ∈ (A.emitShedSite Softmax Budget F Ld).body b :=
  mapInst_mem_emitShedSite h.input h.valid h.mem hI

/-- What is masked is a floating-point value, and computed. -/
theorem of_masked (h : A.Turns Softmax Budget Sites F todo) (hx : x ∈ F.ids b)
    (hmask : A.Masked Softmax Budget p F todo x) : Computed F x ∧ F.typeOf x = .floatingPoint := by
  induction todo generalizing F with
  | nil => exact hmask.elim
  | cons Ld todo ih =>
      by_cases hturn : ∃ m, A.shedMask Softmax F Ld = some m ∧ m.target = x
      · obtain ⟨m, hm, rfl⟩ := hturn
        obtain ⟨-, -, -, -, hcomp, hfloat, -⟩ := emitShedSite_of_shedMask h.input h.valid h.mem hm
        exact ⟨hcomp, hfloat⟩
      · rcases hmask with ⟨m, hm, htarget, -⟩ | hmask
        · exact absurd ⟨m, hm, htarget⟩ hturn
        rw [standIn_of_ne fun m hm htarget => hturn ⟨m, hm, htarget⟩] at hmask
        -- the instruction behind the turn is the one ahead of it, with other operands
        obtain ⟨I, hI, rfl⟩ := List.mem_map.1 hx
        have hJ := h.mapInst_mem hI
        have hF' := h.next.input.wellFormed
        obtain ⟨⟨c, K, hK, hid, hphi, hterm⟩, hfloat⟩ := ih h.next (List.mem_map.2 ⟨_, hJ, rfl⟩) hmask
        rw [hF'.eq_of_id hK hJ hid] at hphi hterm
        rw [typeOf_of_mem h.input.wellFormed hI]
        exact ⟨⟨b, I, hI, rfl, hphi, hterm⟩, (typeOf_of_mem hF' hJ).symm.trans hfloat⟩

theorem not_masked_of_phi (h : A.Turns Softmax Budget Sites F todo) (hI : I ∈ F.body b)
    (hop : I.op = .phi) (hx : I.id = x) : ¬ A.Masked Softmax Budget p F todo x := by
  subst hx
  intro hmask
  exact (h.of_masked (List.mem_map_of_mem hI) hmask).1.ne_phi h.input.wellFormed hI hop rfl

theorem not_masked_of_type (h : A.Turns Softmax Budget Sites F todo) (hI : I ∈ F.body b)
    (hty : I.ty ≠ .floatingPoint) : ¬ A.Masked Softmax Budget p F todo I.id := fun hmask =>
  hty ((typeOf_of_mem h.input.wellFormed hI).symm.trans
    (h.of_masked (List.mem_map_of_mem hI) hmask).2)

/-- The budget is not masked. -/
theorem not_masked_budget (h : A.Turns Softmax Budget Sites F todo)
    (hmask : A.Masked Softmax Budget p F todo x) : Budget ≠ .inst x := by
  induction todo generalizing F x with
  | nil => exact hmask.elim
  | cons Ld todo ih =>
      by_cases hturn : ∃ m, A.shedMask Softmax F Ld = some m ∧ m.target = x
      · obtain ⟨m, hm, rfl⟩ := hturn
        obtain ⟨-, -, -, -, -, -, -, -, hBudget⟩ := emitShedSite_of_shedMask h.input h.valid h.mem hm
        exact hBudget
      · rcases hmask with ⟨m, hm, htarget, -⟩ | hmask
        · exact absurd ⟨m, hm, htarget⟩ hturn
        · rw [standIn_of_ne fun m hm htarget => hturn ⟨m, hm, htarget⟩] at hmask
          exact ih h.next hmask

/-- Only a site is masked by 0. -/
theorem mem_of_masked_zero (h : A.Turns Softmax Budget Sites F todo)
    (hmask : A.Masked Softmax Budget (fun m => m.dropped = .fpZero) F todo x) : x ∈ todo := by
  induction todo generalizing F x with
  | nil => exact hmask.elim
  | cons Ld todo ih =>
      rcases hmask with ⟨m, hm, rfl, hdropped⟩ | hmask
      · rcases (shedMask_eq_some_iff.1 hm).2.2 with ⟨-, hbot⟩ | ⟨-, -, -, hLd, -⟩
        · rw [hdropped] at hbot
          cases hbot
        · exact hLd ▸ List.mem_cons_self ..
      · have hmem := ih h.next hmask
        by_cases hturn : ∃ m, A.shedMask Softmax F Ld = some m ∧ m.target = x
        · -- the select that stands in is no load
          obtain ⟨m, hm, htarget⟩ := hturn
          obtain ⟨P, -, -, hIV, -⟩ := emitShedSite_of_shedMask h.input h.valid h.mem hm
          obtain ⟨b, I, hI, hid, -⟩ := h.input.loads _ (h.next.sites hmem)
          have hlt := h.input.wellFormed.fresh b I.id (List.mem_map_of_mem hI)
          rw [hid, standIn_eq h.input h.valid h.mem hm hIV] at hlt
          have hle := next_le_coerceIV (F := F) m.loop P.id
          simp only [htarget, if_true] at hlt
          omega
        · rw [standIn_of_ne fun m hm htarget => hturn ⟨m, hm, htarget⟩] at hmem
          exact List.mem_cons_of_mem Ld hmem

theorem woven (h : A.Turns Softmax Budget Sites F todo) :
    (todo.foldl (A.emitShedSite Softmax Budget) F).WellFormed ∧
      (todo.foldl (A.emitShedSite Softmax Budget) F).Valid ∧
      F.Extends (todo.foldl (A.emitShedSite Softmax Budget) F) := by
  induction todo generalizing F with
  | nil => exact ⟨h.input.wellFormed, h.valid, Extends.refl F⟩
  | cons Ld todo ih =>
      obtain ⟨hwf, hvalid, hext⟩ := ih h.next
      exact ⟨hwf, hvalid, (emitShedSite_extends Softmax h.input.toShedInput h.mem).2.trans hext⟩

/-- What is not masked stands in for itself behind all turns. -/
theorem standIns_eq (h : A.Turns Softmax Budget Sites F todo)
    (hx : ¬ A.Masked Softmax Budget (fun _ => True) F todo x) :
    A.standIns Softmax Budget F todo x = x := by
  induction todo generalizing F with
  | nil => rfl
  | cons Ld todo ih =>
      obtain ⟨hturn, hrest⟩ := not_or.1 hx
      have hself : A.standIn Softmax Budget F Ld x = x :=
        standIn_of_ne fun m hm htarget => hturn ⟨m, hm, htarget, trivial⟩
      rw [hself] at hrest
      rw [standIns, Function.comp_apply, hself]
      exact ih h.next hrest

/-- **The woven function has every instruction, with the stand-ins for its operands.** -/
theorem mapInst_mem_foldl (h : A.Turns Softmax Budget Sites F todo) (hI : I ∈ F.body b) :
    I.mapInst (A.standIns Softmax Budget F todo) ∈
      (todo.foldl (A.emitShedSite Softmax Budget) F).body b := by
  induction todo generalizing F I with
  | nil => exact (Instr.mapInst_id I).symm ▸ hI
  | cons Ld todo ih =>
      rw [standIns, ← Instr.mapInst_mapInst]
      exact ih h.next (h.mapInst_mem hI)

end Turns

/-! ## Solutions -/

section

variable {𝕜 : Type} [Zero 𝕜]

variable (A Softmax Budget) in
/-- What an instruction may be worth under the masks of the turns to come: what it gives, or the dropped
    value where it is masked; and the dropped value if it is masked with the counter of the loop `L`, and
    the counter has reached the budget. -/
def Sheds (Φ : Arith 𝕜) (n : ℕ) (d : Value 𝕜) (L : ℕ) (drop : Prop) (F : Func) (todo : List ℕ)
    (id : ℕ) (op : Opcode) (vs : List (Value 𝕜)) (v : Value 𝕜) : Prop :=
  (∃ w, Φ.gives n id op vs w ∧
    (v = w ∨ A.Masked Softmax Budget (fun _ => True) F todo id ∧ v = d)) ∧
  (drop → A.Masked Softmax Budget (fun m => m.loop = L) F todo id → v = d)

variable {Φ : Arith 𝕜} {n L : ℕ} {d : Value 𝕜} {drop : Prop} {path : List ℕ} {ρ : ℕ → Value 𝕜}

/-- What the weaving inserted before is worth what it computes, unless it is masked itself. -/
theorem Sheds.eq {id : ℕ} {op : Opcode} {vs : List (Value 𝕜)} {v : Value 𝕜}
    (h : A.Sheds Softmax Budget Φ n d L drop F todo id op vs v) (hid : n ≤ id)
    (hnot : ¬ A.Masked Softmax Budget (fun _ => True) F todo id) : v = maskOp op vs := by
  obtain ⟨⟨w, hw, rfl | ⟨hmask, -⟩⟩, -⟩ := h
  · rwa [Arith.gives, if_neg (not_lt.2 hid)] at hw
  · exact absurd hmask hnot

namespace Turns

variable {m : ShedMask} {P : Instr} {k : ℕ}

/-- Behind a turn that weaves a mask, its counter is the coerced induction variable. -/
theorem counter_eq (h : A.Turns Softmax Budget Sites F (Ld :: todo)) (hn : n ≤ F.next)
    (hm : A.shedMask Softmax F Ld = some m) (hP : P ∈ F.body m.loop) (hop : P.op = .phi)
    (hIV : A.getCanonicalInductionVariable F m.loop = some P.id) (hL : m.loop ∈ path)
    (hsol : (A.emitShedSite Softmax Budget F Ld).Solves Φ.const
      (A.Sheds Softmax Budget Φ n d L drop (A.emitShedSite Softmax Budget F Ld) todo) path ρ)
    (hk : ρ P.id = .int k) :
    ρ (F.coerceIV m.loop P.id).1 = .int (coerced (F.getIntegerBitWidth P.id) k) := by
  obtain ⟨P', hP', -, hIV', hcomp, -, heq, hCtr, hBudget⟩ :=
    emitShedSite_of_shedMask h.input h.valid h.mem hm
  have hF := h.input.wellFormed
  obtain rfl : P = P' := hF.eq_of_id hP hP' (Option.some.inj (hIV.symm.trans hIV'))
  rcases coerceIV_cases hF hP hop with ⟨hw, hcoerce⟩ | ⟨hw, q, T, hq, -, -, hcoerce⟩
  · rw [hcoerce, hk, hw]
    rfl
  · -- the cast stands in the header, which is on the way
    have hcast : F.castIV P.id ∈ (F.coerceIV m.loop P.id).2.body m.loop := by
      rw [hcoerce, insertAt_body hq]
      simp
    have hmem : (F.castIV P.id).mapInst _ ∈ (A.emitShedSite Softmax Budget F Ld).body m.loop :=
      heq ▸ mapInst_mem_emitMask (wellFormed_coerceIV hF hP hop) (valid_coerceIV hF h.valid hP hop)
        ((keeps_coerceIV m.loop P.id).computed hcomp) hCtr hBudget hcast
    have hval := hsol.value m.loop hL _ hmem (by simp [Instr.mapInst, castIV])
      (by simp [Instr.mapInst, castIV])
    have hne : P.id ≠ m.target := (hcomp.ne_phi hF hP hop).symm
    have hargs : ((F.castIV P.id).mapInst fun v =>
        if v = m.target then (F.coerceIV m.loop P.id).2.next + 1 else v).args = [.inst P.id] := by
      simp [Instr.mapInst, castIV, Operand.mapInst, hne]
    rw [hargs] at hval
    have hcastval := hval.eq hn (h.next.not_masked_of_type hmem (by simp [Instr.mapInst, castIV]))
    rw [hcoerce]
    refine hcastval.trans ?_
    simp only [List.map_cons, List.map_nil, Operand.look, hk, Instr.mapInst, castIV, coerced]
    split <;> rfl

/-- **A solution behind a turn, read through its stand-ins, is one ahead of it.** -/
theorem solves_turn (h : A.Turns Softmax Budget Sites F (Ld :: todo)) (hn : n ≤ F.next)
    (hd : ∀ m, A.shedMask Softmax F Ld = some m → Φ.const m.dropped = d) (hL : L ∈ path)
    (hdrop : drop → ∀ iv, A.getCanonicalInductionVariable F L = some iv → ∃ k cap,
      ρ iv = .int k ∧ Budget.look Φ.const ρ = .int cap ∧ cap ≤ coerced (F.getIntegerBitWidth iv) k)
    (hsol : (A.emitShedSite Softmax Budget F Ld).Solves Φ.const
      (A.Sheds Softmax Budget Φ n d L drop (A.emitShedSite Softmax Budget F Ld) todo) path ρ) :
    F.Solves Φ.const (A.Sheds Softmax Budget Φ n d L drop F (Ld :: todo)) path
      (ρ ∘ A.standIn Softmax Budget F Ld) := by
  refine hsol.of_mapInst (fun _ _ hI => h.mapInst_mem hI) (fun b I hI hop => ?_)
    fun b hb I hI _ _ vs hI' => ?_
  · refine standIn_of_ne fun m hm htarget => ?_
    obtain ⟨-, -, -, -, hcomp, -⟩ := emitShedSite_of_shedMask h.input h.valid h.mem hm
    exact hcomp.ne_phi h.input.wellFormed hI hop htarget
  by_cases hturn : ∃ m, A.shedMask Softmax F Ld = some m ∧ m.target = I.id
  · obtain ⟨m, hm, htarget⟩ := hturn
    obtain ⟨P, hP, hop, hIV, hcomp, -, heq, hCtr, hBudget⟩ :=
      emitShedSite_of_shedMask h.input h.valid h.mem hm
    have hF₁ := wellFormed_coerceIV h.input.wellFormed hP hop
    have hI₁ : m.target ∈ (F.coerceIV m.loop P.id).2.ids b :=
      htarget ▸ List.mem_map_of_mem ((sublist_coerceIV m.loop P.id b).subset hI)
    obtain ⟨hkeep, hsel⟩ := mask_mem_emitMask m.dropped hF₁
      ((keeps_coerceIV m.loop P.id).computed hcomp) hCtr hBudget hI₁
    rw [← heq] at hkeep hsel
    have hn₁ := hn.trans (next_le_coerceIV m.loop P.id)
    have hkeepval := (hsol.value b hb _ hkeep (by simp [Keep]) (by simp [Keep])).eq hn₁
      (h.next.not_masked_of_type hkeep (by simp [Keep]))
    obtain ⟨⟨w, hw, hselval⟩, hselcov⟩ := hsol.value b hb _ hsel (by simp [Sel]) (by simp [Sel])
    rw [Arith.gives, if_neg (by simp only [Sel]; omega)] at hw
    have hdval : m.dropped.look Φ.const ρ = d := by
      rw [← hd m hm]
      rcases (shedMask_eq_some_iff.1 hm).2.2 with ⟨-, hdropped⟩ | ⟨-, -, -, -, hdropped⟩ <;>
        rw [hdropped] <;> rfl
    simp only [Sel, Keep, List.map_cons, List.map_nil, Operand.look_inst, hdval] at hkeepval hw hselval hselcov
    have hstand : A.standIn Softmax Budget F Ld I.id = (F.coerceIV m.loop P.id).2.next + 1 := by
      rw [standIn_eq h.input h.valid h.mem hm hIV]
      exact if_pos htarget.symm
    obtain ⟨⟨v, hv, hIval⟩, -⟩ := hI'
    rw [hstand]
    constructor
    · refine ⟨v, hv, ?_⟩
      have hmasked : A.Masked Softmax Budget (fun _ => True) F (Ld :: todo) I.id :=
        Or.inl ⟨m, hm, htarget, trivial⟩
      -- the select is the masked value or the dropped one, and so is the masked value
      rcases hselval with hselval | ⟨-, hselval⟩
      · rcases maskOp_select (ρ (F.coerceIV m.loop P.id).2.next) (ρ m.target) d with heq' | heq'
        · rw [hselval, hw, heq', htarget]
          exact hIval.imp_right fun hval => ⟨hmasked, hval.2⟩
        · exact Or.inr ⟨hmasked, by rw [hselval, hw, heq']⟩
      · exact Or.inr ⟨hmasked, hselval⟩
    · rintro hdr (⟨m', hm', -, hloop⟩ | hmask)
      · obtain rfl := Option.some.inj (hm.symm.trans hm')
        subst hloop
        -- the counter has reached the budget
        obtain ⟨k, cap, hk, hcap, hle⟩ := hdrop hdr P.id hIV
        have hctr := h.counter_eq hn hm hP hop hIV hL hsol hk
        rw [hctr, hcap] at hkeepval
        have hzero : ρ (F.coerceIV m.loop P.id).2.next = .int 0 := by
          rw [hkeepval]
          exact congrArg Value.int (if_neg (not_lt.2 hle))
        rw [hzero] at hw
        rcases hselval with hselval | ⟨-, hselval⟩
        · rw [hselval, hw]
          rfl
        · exact hselval
      · rw [hstand] at hmask
        exact hselcov hdr hmask
  · have hself : A.standIn Softmax Budget F Ld I.id = I.id :=
      standIn_of_ne fun m hm htarget => hturn ⟨m, hm, htarget⟩
    obtain ⟨⟨w, hw, hv⟩, hcov⟩ := hI'
    rw [hself]
    refine ⟨⟨w, hw, hv.imp_right fun hv => ⟨Or.inr ?_, hv.2⟩⟩, fun hdr hmask => hcov hdr ?_⟩
    · exact hself.symm ▸ hv.1
    · rcases hmask with ⟨m, hm, htarget, -⟩ | hrest
      · exact absurd ⟨m, hm, htarget⟩ hturn
      · rwa [hself] at hrest

/-- **A solution for the woven function, read through the stand-ins, is one for the function it was woven
    from.** The dropped values are `d`; if `drop` holds, the counter of the loop has reached the budget. -/
theorem solves (h : A.Turns Softmax Budget Sites F todo) (hn : n ≤ F.next)
    (hd : ∀ m ∈ A.shedMasks Softmax Budget F todo, Φ.const m.dropped = d) (hL : L ∈ path)
    (hdrop : drop → ∀ iv, A.getCanonicalInductionVariable F L = some iv → ∃ k cap,
      ρ iv = .int k ∧ Budget.look Φ.const ρ = .int cap ∧ cap ≤ coerced (F.getIntegerBitWidth iv) k)
    (hsol : (todo.foldl (A.emitShedSite Softmax Budget) F).Solves Φ.const (Φ.gives n) path ρ) :
    F.Solves Φ.const (A.Sheds Softmax Budget Φ n d L drop F todo) path
      (ρ ∘ A.standIns Softmax Budget F todo) := by
  induction todo generalizing F with
  | nil =>
      refine hsol.of_mapInst (fun b I hI => ?_) (fun _ _ _ _ => rfl) fun b _ I _ _ _ vs hv => ?_
      · exact (Instr.mapInst_id I).symm ▸ hI
      · exact ⟨⟨_, hv, Or.inl rfl⟩, fun _ hmask => hmask.elim⟩
  | cons Ld todo ih =>
      simp only [shedMasks, List.mem_append, Option.mem_toList] at hd
      obtain ⟨-, hwoven, -⟩ := emitShedSite_turn Softmax h.input h.mem
      have hF' := h.next.input.wellFormed
      -- the induction variable is a PHI, and behind the turn too
      have hiv : ∀ iv, A.getCanonicalInductionVariable F L = some iv →
          A.standIns Softmax Budget (A.emitShedSite Softmax Budget F Ld) todo iv = iv ∧
            (A.emitShedSite Softmax Budget F Ld).getIntegerBitWidth iv = F.getIntegerBitWidth iv := by
        intro iv hIV
        obtain ⟨P, hP, rfl, hop⟩ := h.input.sound.phi F L iv hIV
        have hnot : ¬ A.Masked Softmax Budget (fun _ => True) (A.emitShedSite Softmax Budget F Ld)
            todo P.id := h.next.not_masked_of_phi (h.mapInst_mem hP) hop rfl
        refine ⟨h.next.standIns_eq hnot, ?_⟩
        rw [getIntegerBitWidth, hwoven.keeps.typeOf_eq h.input.wellFormed hF' hP, getIntegerBitWidth]
      have hsol' := ih h.next (hn.trans hwoven.next_le) (fun m hm => hd m (Or.inr hm)) (fun hdr iv hIV => by
        rw [hwoven.canonical] at hIV
        obtain ⟨k, cap, hk, hcap, hle⟩ := hdrop hdr iv hIV
        exact ⟨k, cap, hk, hcap, (hiv iv hIV).2 ▸ hle⟩) hsol
      refine h.solves_turn hn (fun m hm => hd m (Or.inl hm)) hL (fun hdr iv hIV => ?_) hsol'
      obtain ⟨k, cap, hk, hcap, hle⟩ := hdrop hdr iv hIV
      refine ⟨k, cap, ?_, ?_, hle⟩
      · rw [Function.comp_apply, (hiv iv hIV).1, hk]
      · rw [← hcap]
        refine Operand.look_congr (Operand.all_of_eq fun v hv => congrArg ρ ?_)
        exact h.next.standIns_eq fun hmask => h.next.not_masked_budget hmask hv

end Turns

end

end Analyses

end SchedPass
