import Mathlib.Data.List.TakeWhile
import SchedPass.Lib.Growing
import SchedPass.Weave.Origin
import SchedPass.Weave.Shed

set_option autoImplicit false

/-! # Emitting code (`IRBuilder`, `SplitBlockAndInsertIfThen`)

A builder stands in front of an instruction and stays there when the instruction's block is split. What
is emitted is numbered from the function's next id. Emitting instructions, splitting blocks and joining
values by PHIs leave a function that is instrumented so far an instrumented one (`Edited`), and what is
in scope at an instruction stays in scope (`Growth`). -/

namespace SchedPass

namespace Func

variable (F : Func)

/-! ## The builder -/

/-- An `IRBuilder` in front of instruction `v` inserts the instructions. -/
def insertBefore (v : ℕ) (new : List Instr) : Func :=
  match F.parent v with
  | none => F
  | some b => F.insertAt b ((F.ids b).idxOf v) new

/-- `SplitBlockAndInsertIfThen` in front of instruction `v`: the new block has its branch only. -/
def splitBefore (v : ℕ) (Cond : Operand) : Func :=
  match F.parent v with
  | none => F
  | some b => F.splitIf b ((F.ids b).idxOf v) Cond []

/-- A PHI behind the PHIs that stand at the head of a block. -/
def insertPHI (b : ℕ) (ty : Ty) (incoming : List (ℕ × Operand)) : Func :=
  F.insertAt b ((F.body b).takeWhile fun I => I.op == .phi).length
    [⟨F.next, .phi, ty, [], incoming⟩]

end Func

/-- What an `IRBuilder` may emit: no PHI, no branch, and no call of a function. -/
def Opcode.plain : Opcode → Bool
  | .phi | .terminator | .call none _ => false
  | _ => true

/-- Neither an instruction nor what it computes. -/
def Operand.closed : Operand → Bool
  | .inst _ => false
  | _ => true

/-- Code is emitted into a function. -/
abbrev Emit := StateM Func

/-- One instruction in front of `IP`. -/
def create (IP : ℕ) (op : Opcode) (ty : Ty) (args : List Operand) : Emit Operand := fun F =>
  (.inst F.next, F.insertBefore IP [⟨F.next, op, ty, args, []⟩])

/-- The branch of the block that is entered under the condition. -/
def SplitBlockAndInsertIfThen (Cond : Operand) (SplitPt : ℕ) : Emit ℕ := fun F =>
  (F.next + 1, F.splitBefore SplitPt Cond)

/-- `PB(Tail, Tail->begin())` when the tail begins with the split point or with PHIs made here. -/
def CreatePHI (Tail : ℕ) (ty : Ty) (incoming : List (ℕ × Operand)) : Emit Operand := fun F =>
  (.inst F.next, F.insertPHI Tail ty incoming)

/-- `I->getParent()`. -/
def getParent (v : ℕ) : Emit ℕ := fun F => ((F.parent v).getD F.cfg.entry, F)

/-! ## Where an instruction is -/

/-- Instruction `v`, no PHI, stands in block `b` behind the instructions `l`. -/
structure Func.At (F : Func) (v b : ℕ) (l : List Instr) (I : Instr) (post : List Instr) : Prop where
  body_eq : F.body b = l ++ I :: post
  id_eq : I.id = v
  not_phi : I.op ≠ .phi

/-- There is such an instruction. -/
def Func.Spot (F : Func) (v : ℕ) : Prop := ∃ b l I post, F.At v b l I post

/-- Instruction `v` could use the operand. -/
def Func.AvailableAt (F : Func) (v : ℕ) (x : Operand) : Prop :=
  ∃ b l I post, F.At v b l I post ∧ x.All (F.Available b (l.map Instr.id))

/-- Instruction `v` could use all of these. -/
def Func.Scope (F : Func) (v : ℕ) (xs : List Operand) : Prop :=
  F.Spot v ∧ ∀ x ∈ xs, F.AvailableAt v x

section

open Func

variable {F F' : Func} {a b b' v w : ℕ} {l l' post post' : List Instr} {I I' : Instr} {x : Operand}
  {xs : List Operand}

theorem Operand.All.of_closed (h : x.closed = true) (P : ℕ → Prop) : x.All P := by
  cases x with
  | inst v => cases h
  | _ => trivial

theorem Func.AvailableAt.spot (h : F.AvailableAt v x) : F.Spot v := by
  obtain ⟨b, l, I, post, hat, -⟩ := h
  exact ⟨b, l, I, post, hat⟩

theorem Func.Spot.available (h : F.Spot v) (hx : x.closed = true) : F.AvailableAt v x := by
  obtain ⟨b, l, I, post, hat⟩ := h
  exact ⟨b, l, I, post, hat, Operand.All.of_closed hx _⟩

section

variable (hF : F.WellFormed)

include hF

theorem Func.At.parent_eq (h : F.At v b l I post) : F.parent v = some b := by
  have hI : I ∈ F.body b := h.body_eq ▸ List.mem_append_right l (List.mem_cons_self ..)
  rw [← h.id_eq]
  exact hF.parent_eq hI

theorem Func.At.idxOf_eq (h : F.At v b l I post) : (F.ids b).idxOf v = l.length := by
  have hnodup := hF.ids_nodup b
  rw [ids, h.body_eq, List.map_append, List.map_cons, h.id_eq] at hnodup ⊢
  have hnot : v ∉ l.map Instr.id := fun hv =>
    (List.nodup_append.1 hnodup).2.2 _ hv _ (List.mem_cons_self ..) rfl
  rw [List.idxOf_append_of_notMem hnot, List.idxOf_cons_self, List.length_map, Nat.add_zero]

theorem Func.At.unique (h : F.At v b l I post) (h' : F.At v b' l' I' post') :
    b = b' ∧ l = l' ∧ I = I' ∧ post = post' := by
  obtain rfl : b = b' := Option.some_inj.1 ((h.parent_eq hF).symm.trans (h'.parent_eq hF))
  have hlen : l.length = l'.length := (h.idxOf_eq hF).symm.trans (h'.idxOf_eq hF)
  obtain ⟨rfl, hrest⟩ := List.append_inj (h.body_eq.symm.trans h'.body_eq) hlen
  obtain ⟨rfl, rfl⟩ := List.cons_eq_cons.1 hrest
  exact ⟨rfl, rfl, rfl, rfl⟩

theorem Func.At.point (h : F.At v b l I post) : F.Point b l (I :: post) where
  body_eq := h.body_eq
  ne_nil := List.cons_ne_nil _ _
  not_phi := by
    have hphis := hF.phis_first b
    rw [h.body_eq, List.pairwise_append] at hphis
    intro J hJ hop
    rcases List.mem_cons.1 hJ with rfl | hJ
    · exact h.not_phi hop
    · exact h.not_phi (List.rel_of_pairwise_cons hphis.2.1 hJ hop)

theorem Func.At.mem_blocks (h : F.At v b l I post) : b ∈ F.blocks :=
  (h.point hF).mem_blocks hF

theorem Func.At.available (h : F.At v b l I post) (hx : F.AvailableAt v x) :
    x.All (F.Available b (l.map Instr.id)) := by
  obtain ⟨b', l', I', post', h', hx⟩ := hx
  obtain ⟨rfl, rfl, -, -⟩ := h.unique hF h'
  exact hx

theorem Func.insertBefore_eq (h : F.At v b l I post) (new : List Instr) :
    F.insertBefore v new = F.insertAt b l.length new := by
  simp only [insertBefore, h.parent_eq hF, h.idxOf_eq hF]

theorem Func.splitBefore_eq (h : F.At v b l I post) (Cond : Operand) :
    F.splitBefore v Cond = F.splitIf b l.length Cond [] := by
  simp only [splitBefore, h.parent_eq hF, h.idxOf_eq hF]

/-- What can be used at an instruction can be used where the instruction can be. -/
theorem Func.AvailableAt.trans (hx : F.AvailableAt v x) (hv : F.AvailableAt w (.inst v)) :
    F.AvailableAt w x := by
  obtain ⟨b, l, I, post, hat, hx⟩ := hx
  obtain ⟨c, q, J, post', hat', hv⟩ := hv
  refine ⟨c, q, J, post', hat', hx.mono fun u hu => ?_⟩
  have hvb : v ∈ F.ids b := by
    rw [ids, hat.body_eq, List.map_append, List.map_cons, hat.id_eq]
    exact List.mem_append_right _ (List.mem_cons_self ..)
  have hsub : ∀ u ∈ l.map Instr.id, u ∈ F.ids b := fun u hu => by
    rw [ids, hat.body_eq, List.map_append]
    exact List.mem_append_left _ hu
  rcases hv with hv | ⟨d, hv, hdom⟩
  · -- in one block, the earlier instruction has less ahead of it
    have hvc : v ∈ F.ids c := by
      rw [ids, hat'.body_eq, List.map_append]
      exact List.mem_append_left _ hv
    obtain rfl := hF.ids_block b c v hvb hvc
    obtain ⟨K, hK, hKv⟩ := List.mem_map.1 hv
    obtain ⟨q₁, q₂, rfl⟩ := List.append_of_mem hK
    have hbody : F.body b = q₁ ++ K :: (q₂ ++ J :: post') := by
      rw [hat'.body_eq, List.append_assoc, List.cons_append]
    have hKop : K = I := hF.eq_of_id (hbody ▸ List.mem_append_right _ (List.mem_cons_self ..))
      (hat.body_eq ▸ List.mem_append_right _ (List.mem_cons_self ..)) (hKv.trans hat.id_eq.symm)
    obtain ⟨-, rfl, -, -⟩ := hat.unique hF ⟨hbody, hKv, hKop ▸ hat.not_phi⟩
    rcases hu with hu | hu
    · left
      rw [List.map_append]
      exact List.mem_append_left _ hu
    · exact Or.inr hu
  · obtain rfl := hF.ids_block b d v hvb hv
    rcases hu with hu | ⟨d, hu, hdom'⟩
    · exact Or.inr ⟨b, hsub u hu, hdom⟩
    · exact Or.inr ⟨d, hu, hdom'.trans hdom⟩

end

/-- An instruction can use its operands. -/
theorem Func.At.available_of_mem (hvalid : F.Valid) (h : F.At v b l I post) (hx : x ∈ I.args) :
    F.AvailableAt v x := by
  have hbody := hvalid b
  rw [h.body_eq, bodyOk_append] at hbody
  exact ⟨b, l, I, post, h, hbody.2.1.1 x hx⟩

end

/-! ## What edits keep -/

/-- A function that is valid and an instrumented version of its origin. -/
structure Edited (B : Origin) (F : Func) : Prop where
  wellFormed : F.WellFormed
  valid : F.Valid
  phisName : F.PhisName
  next_le : B.next ≤ F.next
  instruments : ∃ S R, Instruments B.func (B.view F) B.next S ∧ (∀ b, S.rank b ≤ R) ∧
    ∀ t ∈ B.starts, t ∈ F.blocks ∧ S.home t = B.func.cfg.entry

/-- There is a PHI of the id in the block. -/
def Func.HasPHI (F : Func) (b p : ℕ) : Prop := ∃ I ∈ F.body b, I.id = p ∧ I.op = .phi

/-- What is in scope stays in scope, and the blocks stay, with their PHIs. -/
structure Growth (F F' : Func) : Prop where
  available : ∀ v x, F.AvailableAt v x → F'.AvailableAt v x
  blocks_subset : F.blocks ⊆ F'.blocks
  hasPHI : ∀ b p, F.HasPHI b p → F'.HasPHI b p

theorem Growth.trans {F F' F'' : Func} (h : Growth F F') (h' : Growth F' F'') : Growth F F'' where
  available v x hx := h'.available v x (h.available v x hx)
  blocks_subset := List.Subset.trans h.blocks_subset h'.blocks_subset
  hasPHI b p hp := h'.hasPHI b p (h.hasPHI b p hp)

instance : IsPreorder Func Growth where
  refl _ := ⟨fun _ _ h => h, List.Subset.refl _, fun _ _ h => h⟩
  trans _ _ _ := Growth.trans

theorem Edited.refl {F : Func} (hF : F.WellFormed) (hvalid : F.Valid) (hphis : F.PhisName) :
    Edited (.of F) F where
  wellFormed := hF
  valid := hvalid
  phisName := hphis
  next_le := le_rfl
  instruments := by
    have hview : (Origin.of F).view F = F := Func.asArgument_nil F
    rw [hview]
    exact ⟨_, 0, instruments_refl hF, fun _ => le_rfl, fun t ht => by cases ht⟩

section

open Func

variable {B : Origin} {F F' : Func} {b v : ℕ} {l post new : List Instr} {I : Instr}
  {x Cond : Operand}
  {xs : List Operand}

theorem Growth.spot (h : Growth F F') (hv : F.Spot v) : F'.Spot v :=
  (h.available v (.arg 0) (hv.available rfl)).spot

theorem Growth.scope (h : Growth F F') (hs : F.Scope v xs) : F'.Scope v xs :=
  ⟨h.spot hs.1, fun x hx => h.available v x (hs.2 x hx)⟩

/-- An instruction has no less ahead of it after an insertion. -/
theorem growth_insertAt (hbody : F.body b = l ++ post) : Growth F (F.insertAt b l.length new) where
  blocks_subset := List.Subset.refl _
  hasPHI := by
    rintro a p ⟨I, hI, hid, hop⟩
    exact ⟨I, (sublist_insertAt a).subset hI, hid, hop⟩
  available := by
    rintro v x ⟨a, q, I, r, hat, hx⟩
    have hmono : ∀ q' r' : List Instr, (F.insertAt b l.length new).body a = q' ++ I :: r' →
        q ⊆ q' → (F.insertAt b l.length new).AvailableAt v x := fun _ _ hbody' hsub =>
      ⟨a, _, I, _, ⟨hbody', hat.id_eq, hat.not_phi⟩,
        hx.mono fun u hu => hu.extends extends_insertAt (List.map_subset _ hsub)⟩
    by_cases hab : a = b
    · subst hab
      have hinsert : (F.insertAt a l.length new).body a = l ++ new ++ post := insertAt_body hbody
      have hsplit := hbody.symm.trans hat.body_eq
      rcases List.append_eq_append_iff.1 hsplit with ⟨c, rfl, rfl⟩ | ⟨c, rfl, hc⟩
      · refine hmono (l ++ new ++ c) r (by rw [hinsert]; simp) ?_
        intro u hu
        simp only [List.mem_append] at hu ⊢
        tauto
      · rcases List.cons_eq_append_iff.1 hc with ⟨rfl, rfl⟩ | ⟨c', rfl, rfl⟩
        · refine hmono (q ++ new) r (by rw [hinsert]; simp) ?_
          exact List.subset_append_left ..
        · exact hmono q (c' ++ new ++ post) (by rw [hinsert]; simp)
            (List.Subset.refl _)
    · exact hmono _ _ ((insertAt_body_ne hab).trans hat.body_eq) (List.Subset.refl _)

/-- The instructions behind the point go to the tail. -/
theorem growth_splitIf (hF : F.WellFormed) (hpoint : F.Point b l post) :
    Growth F (F.splitIf b l.length Cond []) where
  blocks_subset := fun a ha => mem_splitIf_blocks.2 (Or.inl ha)
  hasPHI := by
    rintro a p ⟨I, hI, hid, hop⟩
    have ha := hF.body_mem a I hI
    refine ⟨I.rename (F.tailName b), ?_, hid, hop⟩
    by_cases hab : a = b
    · subst hab
      rw [splitIf_body_self ha hpoint.body_eq]
      rw [hpoint.body_eq, List.mem_append] at hI
      have hl := hI.resolve_right fun h => hpoint.not_phi I h hop
      exact List.mem_map_of_mem (List.mem_append_left _ hl)
    · rw [splitIf_body_of_ne hab (fun h => thenBlock_not_mem (h ▸ ha)) fun h =>
        tailBlock_not_mem (h ▸ ha)]
      exact List.mem_map_of_mem hI
  available := by
    rintro v x ⟨a, q, I, r, hat, hx⟩
    have ha := hat.mem_blocks hF
    have hb := hpoint.mem_blocks hF
    -- where the instruction is now, behind the instructions `q'`
    have hmono : ∀ (c : ℕ) (q' r' : List Instr), (F.splitIf b l.length Cond []).body c
          = (q' ++ I :: r').map (Instr.rename (F.tailName b)) →
        (∀ u, F.Available a (q.map Instr.id) u →
          (F.splitIf b l.length Cond []).Available c (q'.map Instr.id) u) →
        (F.splitIf b l.length Cond []).AvailableAt v x := by
      intro c q' r' hbody hmono
      refine ⟨c, q'.map (Instr.rename _), I.rename _, r'.map (Instr.rename _),
        ⟨by rw [hbody, List.map_append, List.map_cons], hat.id_eq, hat.not_phi⟩, ?_⟩
      rw [map_id_rename]
      exact hx.mono hmono
    by_cases hab : a = b
    · subst hab
      rcases List.append_eq_append_iff.1 (hpoint.body_eq.symm.trans hat.body_eq) with
        ⟨c, rfl, rfl⟩ | ⟨c, rfl, hc⟩
      · refine hmono _ _ _ (splitIf_body_tail hpoint.body_eq) fun u hu => ?_
        rw [List.map_append] at hu
        exact Available.splitIf_tail hF hpoint hu
      · rcases List.cons_eq_append_iff.1 hc with ⟨rfl, rfl⟩ | ⟨c', rfl, rfl⟩
        · simp only [List.append_nil] at hpoint hmono ⊢
          refine hmono _ [] _ (splitIf_body_tail hpoint.body_eq) fun u hu => ?_
          exact Available.splitIf_new hF hpoint (Or.inr rfl) hu
        · refine hmono _ q (c' ++ [F.condBr Cond []])
            ((splitIf_body_self ha hpoint.body_eq).trans (by simp)) fun u hu => ?_
          exact Available.splitIf hF hpoint ha hu
    · exact hmono _ _ _ ((splitIf_body_of_ne hab (fun h => thenBlock_not_mem (h ▸ ha)) fun h =>
        tailBlock_not_mem (h ▸ ha)).trans (congrArg _ hat.body_eq)) fun u hu =>
          Available.splitIf hF hpoint ha hu

/-! ## One instruction -/

theorem fresh_singleton {op : Opcode} (hop : op.plain = true) (ty : Ty) (args : List Operand) :
    F.Fresh [⟨F.next, op, ty, args, []⟩] := by
  have hplain : op ≠ .phi ∧ op ≠ .terminator := by
    constructor <;> rintro rfl <;> cases hop
  refine ⟨rfl, ?_, ?_, ?_⟩ <;> intro I hI <;> obtain rfl := List.mem_singleton.1 hI
  exacts [hplain.1, hplain.2, rfl]

theorem callsNothing_of_plain {op : Opcode} (hop : op.plain = true) (ty : Ty) (args : List Operand) :
    Instr.callsNothing ⟨F.next, op, ty, args, []⟩ = true := by
  unfold Instr.callsNothing
  unfold Opcode.plain at hop
  split at hop
  · rfl
  · rfl
  · cases hop
  · next hcall =>
      split
      · next g hop => exact absurd hop (hcall g)
      · rfl

theorem Edited.insertAt (hF : Edited B F) (hat : F.At v b l I post) {op : Opcode}
    (hop : op.plain = true) (ty : Ty) {args : List Operand} (hargs : ∀ x ∈ args, F.AvailableAt v x) :
    Edited B (F.insertAt b l.length [⟨F.next, op, ty, args, []⟩]) := by
  have hpoint := hat.point hF.wellFormed
  have hfresh := fresh_singleton (F := F) hop ty args
  obtain ⟨S, R, hS, hR, hstarts⟩ := hF.instruments
  refine ⟨hF.wellFormed.insertAt hfresh hpoint.body_eq hpoint.not_phi hpoint.ne_nil,
    hF.valid.insertAt hpoint.body_eq ⟨⟨fun x hx => ?_, fun p hp => ?_⟩, trivial⟩, ?_, ?_, S, R, ?_, hR,
    hstarts⟩
  · exact (hat.available hF.wellFormed (hargs x hx)).mono fun u hu =>
      hu.extends extends_insertAt (List.Subset.refl _)
  · cases hp
  · intro a K hK p hp
    rcases mem_insertAt hK with hK | ⟨-, hK⟩
    · exact hF.phisName a K hK p hp
    · rw [hfresh.incoming_eq K hK] at hp
      cases hp
  · exact hF.next_le.trans (Nat.le_add_right ..)
  · refine Origin.instruments_insertAt hS hpoint (fun K hK => hF.next_le.trans (hfresh.id_mem hK).1)
      hfresh.not_terminator fun K hK => ?_
    obtain rfl := List.mem_singleton.1 hK
    exact callsNothing_of_plain hop ty args

/-- Behind a new instruction its value can be used. -/
theorem available_insertAt (hat : F.At v b l I post) (op : Opcode) (ty : Ty) (args : List Operand)
    (incoming : List (ℕ × Operand)) :
    (F.insertAt b l.length [⟨F.next, op, ty, args, incoming⟩]).AvailableAt v (.inst F.next) := by
  refine ⟨b, l ++ [⟨F.next, op, ty, args, incoming⟩], I, post,
    ⟨insertAt_body hat.body_eq, hat.id_eq, hat.not_phi⟩, Or.inl ?_⟩
  rw [List.map_append]
  exact List.mem_append_right _ (List.mem_singleton_self _)

/-! ## One split -/

theorem Edited.splitIf (hF : Edited B F) (hat : F.At v b l I post) (hCond : F.AvailableAt v Cond) :
    Edited B (F.splitIf b l.length Cond []) := by
  have hpoint := hat.point hF.wellFormed
  obtain ⟨S, R, hS, hR, hstarts⟩ := hF.instruments
  obtain ⟨i, hsplit⟩ := Origin.instruments_splitIf hS hF.wellFormed hpoint hF.next_le
  refine ⟨hF.wellFormed.splitIf hpoint fresh_nil,
    Valid.splitIf hF.wellFormed hpoint fresh_nil hF.valid hF.phisName
      (hat.available hF.wellFormed hCond) trivial,
    PhisName.splitIf hF.wellFormed hpoint fresh_nil hF.phisName, ?_,
    _, 3 * R + 2, hsplit, Pieces.splitIf_rank_le hR, fun t ht => ?_⟩
  · exact hF.next_le.trans (Nat.le_add_right F.next 2)
  · obtain ⟨hmem, hhome⟩ := hstarts t ht
    have hview : t ∈ (B.view F).blocks := hmem
    exact ⟨mem_splitIf_blocks.2 (Or.inl hmem), (Pieces.splitIf_of_mem hview).1.trans hhome⟩

/-- What can be used at the split point can be used in the new block. -/
theorem available_splitIf (hF : F.WellFormed) (hat : F.At v b l I post) (hx : F.AvailableAt v x) :
    (F.splitIf b l.length Cond []).AvailableAt (F.next + 1) x := by
  have hpoint := hat.point hF
  refine ⟨F.thenBlock, [], (F.thenBr []).rename (F.tailName b), [], ⟨splitIf_body_then, rfl, nofun⟩, ?_⟩
  exact (hat.available hF hx).mono fun u hu => Available.splitIf_new hF hpoint (Or.inl rfl) hu

/-! ## One PHI -/

/-- The PHIs at the head of a block, and the rest of it. -/
theorem point_phis (hF : F.WellFormed) (hb : b ∈ F.blocks) :
    F.Point b ((F.body b).takeWhile fun I => I.op == .phi)
      ((F.body b).dropWhile fun I => I.op == .phi) := by
  obtain ⟨q, T, hq, hT, -⟩ := hF.terminated b hb
  have hmem : T ∈ F.body b := hq ▸ List.mem_append_right _ (List.mem_singleton_self _)
  refine ⟨List.takeWhile_append_dropWhile.symm, ?_, ?_⟩
  · have hphis := (hF.phis_first b).sublist (List.dropWhile_sublist fun I => I.op == .phi)
    cases hdrop : (F.body b).dropWhile fun I => I.op == .phi with
    | nil => simp
    | cons K rest =>
        rw [hdrop] at hphis
        have hK : K.op ≠ .phi := by
          have hhead := List.head?_dropWhile_not (fun I : Instr => I.op == .phi) (F.body b)
          rw [hdrop] at hhead
          simpa using hhead
        intro J hJ hop
        rcases List.mem_cons.1 hJ with rfl | hJ
        · exact hK hop
        · exact hK (List.rel_of_pairwise_cons hphis hJ hop)
  · intro hnil
    have := List.dropWhile_eq_nil_iff.1 hnil T hmem
    simp [hT] at this

/-- What can be used at the end of the block. -/
def Func.AvailableAtEnd (F : Func) (b : ℕ) (x : Operand) : Prop :=
  b ∈ F.blocks ∧ x.All (F.Available b (F.ids b))

theorem Func.At.availableAtEnd (hF : F.WellFormed) (hat : F.At v b l I post)
    (hx : F.AvailableAt v x) : F.AvailableAtEnd b x := by
  refine ⟨hat.mem_blocks hF, (hat.available hF hx).mono fun u hu => hu.imp_left fun hu => ?_⟩
  rw [ids, hat.body_eq, List.map_append]
  exact List.mem_append_left _ hu

/-- A PHI has the id that another instruction would have. -/
theorem ids_insertPHI (k : ℕ) (ty : Ty) (incoming : List (ℕ × Operand)) :
    (F.insertAt b k [⟨F.next, .phi, ty, [], incoming⟩]).ids
      = (F.insertAt b k [⟨F.next, .other, ty, [], []⟩]).ids := by
  funext a
  unfold ids Func.insertAt
  by_cases hab : a = b
  · subst hab
    simp
  · simp [Function.update_of_ne hab]

theorem wellFormed_insertPHI (hF : F.WellFormed) (hb : b ∈ F.blocks) (ty : Ty)
    (incoming : List (ℕ × Operand)) : (F.insertPHI b ty incoming).WellFormed := by
  have hpoint := point_phis hF hb
  have hfresh : F.Fresh [⟨F.next, .other, ty, [], []⟩] := fresh_singleton rfl ty []
  have hplain := hF.insertAt hfresh hpoint.body_eq hpoint.not_phi hpoint.ne_nil
  have hids := ids_insertPHI (F := F) (b := b)
    ((F.body b).takeWhile fun I => I.op == .phi).length ty incoming
  exact {
    entry_mem := hF.entry_mem
    succ_mem := hF.succ_mem
    body_mem := by
      intro a K hK
      rcases mem_insertAt hK with hK | ⟨rfl, -⟩
      · exact hF.body_mem a K hK
      · exact hb
    ids_nodup := by
      rw [insertPHI, hids]
      exact hplain.ids_nodup
    ids_block := by
      rw [insertPHI, hids]
      exact hplain.ids_block
    fresh := by
      rw [insertPHI, hids]
      exact hplain.fresh
    phis_first := by
      intro a
      by_cases hab : a = b
      · subst hab
        rw [insertPHI, insertAt_body hpoint.body_eq]
        refine List.pairwise_append.2 ⟨List.pairwise_of_forall_mem_list ?_, ?_, ?_⟩
        · intro J hJ K hK _
          rcases List.mem_append.1 hJ with hJ | hJ
          · simpa using List.mem_takeWhile_imp hJ
          · rw [List.mem_singleton.1 hJ]
        · exact List.pairwise_of_forall_mem_list fun J _ K hK hop => absurd hop (hpoint.not_phi K hK)
        · exact fun J _ K hK hop => absurd hop (hpoint.not_phi K hK)
      · rw [insertPHI, insertAt_body_ne hab]
        exact hF.phis_first a
    terminated := by
      intro a ha
      obtain ⟨q, T, hq, hT, hqT⟩ := hF.terminated a ha
      by_cases hab : a = b
      · subst hab
        obtain ⟨r, hr, rfl⟩ := split_terminated hpoint.body_eq hpoint.ne_nil hq
        have hbody : (F.insertPHI a ty incoming).body a = _ := insertAt_body hpoint.body_eq
        rw [hr, ← List.append_assoc] at hbody
        refine ⟨_, T, hbody, hT, ?_⟩
        intro J hJ
        rw [List.mem_append, List.mem_append, List.mem_singleton] at hJ
        rcases hJ with (hJ | rfl) | hJ
        · exact hqT J (List.mem_append_left r hJ)
        · nofun
        · exact hqT J (List.mem_append_right _ hJ)
      · exact ⟨q, T, (insertAt_body_ne hab).trans hq, hT, hqT⟩
    incoming_phi := by
      intro a K hK hop
      rcases mem_insertAt hK with hK | ⟨-, hK⟩
      · exact hF.incoming_phi a K hK hop
      · rw [List.mem_singleton.1 hK] at hop
        exact absurd rfl hop }

theorem Edited.insertPHI (hF : Edited B F) (hb : b ∈ F.blocks) (ty : Ty)
    {incoming : List (ℕ × Operand)} (hin : ∀ p ∈ incoming, F.AvailableAtEnd p.1 p.2) :
    Edited B (F.insertPHI b ty incoming) := by
  have hpoint := point_phis hF.wellFormed hb
  obtain ⟨S, R, hS, hR, hstarts⟩ := hF.instruments
  refine ⟨wellFormed_insertPHI hF.wellFormed hb ty incoming,
    hF.valid.insertAt hpoint.body_eq ⟨⟨nofun, fun p hp => ?_⟩, trivial⟩, ?_,
    hF.next_le.trans (Nat.le_add_right ..), S, R, ?_, hR, hstarts⟩
  · exact (hin p hp).2.mono fun u hu =>
      hu.extends extends_insertAt (extends_insertAt.ids_subset p.1)
  · intro a K hK p hp
    rcases mem_insertAt hK with hK | ⟨-, hK⟩
    · exact hF.phisName a K hK p hp
    · rw [List.mem_singleton.1 hK] at hp
      exact (hin p hp).1
  · refine Origin.instruments_insertAt hS hpoint ?_ ?_ ?_ <;> intro K hK <;>
      obtain rfl := List.mem_singleton.1 hK
    exacts [hF.next_le, nofun, rfl]

/-- Behind the PHIs of its block the new one can be used. -/
theorem available_insertPHI (hF : F.WellFormed) (hat : F.At v b l I post) (ty : Ty)
    (incoming : List (ℕ × Operand)) : (F.insertPHI b ty incoming).AvailableAt v (.inst F.next) := by
  have hpoint := point_phis hF (hat.mem_blocks hF)
  have hI : I ∈ (F.body b).dropWhile fun I => I.op == .phi := by
    have hmem : I ∈ F.body b := hat.body_eq ▸ List.mem_append_right l (List.mem_cons_self ..)
    rw [hpoint.body_eq, List.mem_append] at hmem
    refine hmem.resolve_left fun h => hat.not_phi ?_
    simpa using List.mem_takeWhile_imp h
  obtain ⟨r, r', hr⟩ := List.append_of_mem hI
  have hbody : (F.insertPHI b ty incoming).body b = _ := insertAt_body hpoint.body_eq
  rw [hr] at hbody
  refine ⟨b, _ ++ r, I, r', ⟨hbody.trans (List.append_assoc ..).symm, hat.id_eq, hat.not_phi⟩,
    Or.inl ?_⟩
  simp

/-! ## Rules -/

/-- The instruction stands in the block. -/
def Func.InBlock (F : Func) (v b : ℕ) : Prop := ∃ l I post, F.At v b l I post

theorem Func.InBlock.availableAtEnd (hF : F.WellFormed) (hv : F.InBlock v b)
    (hx : F.AvailableAt v x) : F.AvailableAtEnd b x := by
  obtain ⟨l, I, post, hat⟩ := hv
  exact hat.availableAtEnd hF hx

theorem Func.Scope.mem_or_closed (hs : F.Scope v xs) (hx : x ∈ xs ∨ x.closed = true) :
    F.AvailableAt v x :=
  hx.elim (hs.2 x) hs.1.available

theorem Func.Scope.cons (hs : F.Scope v xs) (hx : F.AvailableAt v x) : F.Scope v (x :: xs) :=
  ⟨hs.1, List.forall_mem_cons.2 ⟨hx, hs.2⟩⟩

theorem Func.Scope.mono {ys : List Operand} (hs : F.Scope v xs) (h : ys ⊆ xs) : F.Scope v ys :=
  ⟨hs.1, fun x hx => hs.2 x (h hx)⟩

variable (hF : Edited B F) (hs : F.Scope v xs)

include hF hs

theorem create_grows {op : Opcode} (hop : op.plain = true) (ty : Ty) {args : List Operand}
    (hargs : ∀ x ∈ args, x ∈ xs ∨ x.closed = true) :
    Grows (Edited B) Growth (create v op ty args) F fun x F' => F'.Scope v (x :: xs) := by
  obtain ⟨b, l, I, post, hat⟩ := hs.1
  show Edited B (F.insertBefore v _) ∧ Growth F (F.insertBefore v _) ∧
    (F.insertBefore v _).Scope v (.inst F.next :: xs)
  rw [insertBefore_eq hF.wellFormed hat]
  have hgrowth : Growth F (F.insertAt b l.length [⟨F.next, op, ty, args, []⟩]) :=
    growth_insertAt hat.body_eq
  exact ⟨hF.insertAt hat hop ty fun x hx => hs.mem_or_closed (hargs x hx), hgrowth,
    (hgrowth.scope hs).cons (available_insertAt hat op ty args [])⟩

theorem split_grows (hCond : Cond ∈ xs ∨ Cond.closed = true) :
    Grows (Edited B) Growth (SplitBlockAndInsertIfThen Cond v) F fun t F' => F'.Scope t xs := by
  obtain ⟨b, l, I, post, hat⟩ := hs.1
  show Edited B (F.splitBefore v Cond) ∧ Growth F (F.splitBefore v Cond) ∧
    (F.splitBefore v Cond).Scope (F.next + 1) xs
  rw [splitBefore_eq hF.wellFormed hat]
  refine ⟨hF.splitIf hat (hs.mem_or_closed hCond),
    growth_splitIf hF.wellFormed (hat.point hF.wellFormed), ?_, fun x hx => ?_⟩
  · exact (available_splitIf (x := .arg 0) hF.wellFormed hat (hs.1.available rfl)).spot
  · exact available_splitIf hF.wellFormed hat (hs.2 x hx)

theorem getParent_grows :
    Grows (Edited B) Growth (getParent v) F fun b F' => F' = F ∧ F.InBlock v b := by
  obtain ⟨b, l, I, post, hat⟩ := hs.1
  refine ⟨hF, Std.Refl.refl F, rfl, ?_⟩
  show F.InBlock v ((F.parent v).getD F.cfg.entry)
  rw [hat.parent_eq hF.wellFormed]
  exact ⟨l, I, post, hat⟩

theorem phi_grows (hv : F.InBlock v b) (ty : Ty) {incoming : List (ℕ × Operand)}
    (hin : ∀ p ∈ incoming, F.AvailableAtEnd p.1 p.2) :
    Grows (Edited B) Growth (CreatePHI b ty incoming) F fun x F' => F'.Scope v (x :: xs) ∧
      F'.InBlock v b ∧ ∀ a y, F.AvailableAtEnd a y → F'.AvailableAtEnd a y := by
  obtain ⟨l, I, post, hat⟩ := hv
  have hb := hat.mem_blocks hF.wellFormed
  have hpoint := point_phis hF.wellFormed hb
  have hgrowth : Growth F (F.insertPHI b ty incoming) := growth_insertAt hpoint.body_eq
  have hedited := hF.insertPHI hb ty hin
  have hx := available_insertPHI hF.wellFormed hat ty incoming
  refine ⟨hedited, hgrowth, (hgrowth.scope hs).cons hx, ?_, fun a y hy => ⟨hy.1, ?_⟩⟩
  · obtain ⟨c, l', I', post', hat', hav⟩ := hx
    have hmem : I' ∈ F.body c ∨ c = b ∧ I' ∈ [⟨F.next, .phi, ty, [], incoming⟩] :=
      mem_insertAt (hat'.body_eq ▸ List.mem_append_right l' (List.mem_cons_self ..))
    have hold : v ∈ F.ids b := by
      rw [ids, hat.body_eq, List.map_append, List.map_cons, hat.id_eq]
      exact List.mem_append_right _ (List.mem_cons_self ..)
    rcases hmem with hmem | ⟨rfl, -⟩
    · obtain rfl := hF.wellFormed.ids_block c b v (hat'.id_eq ▸ List.mem_map_of_mem hmem) hold
      exact ⟨l', I', post', hat'⟩
    · exact ⟨l', I', post', hat'⟩
  · exact hy.2.mono fun u hu => hu.extends extends_insertAt (extends_insertAt.ids_subset a)

/-- A PHI is where it was put. -/
theorem phi_hasPHI {b : ℕ} (hv : F.InBlock v b) (ty : Ty) {incoming : List (ℕ × Operand)}
    (hin : ∀ p ∈ incoming, F.AvailableAtEnd p.1 p.2) :
    Grows (Edited B) Growth (CreatePHI b ty incoming) F fun x F' => ∃ p, x = .inst p ∧
      B.next ≤ p ∧ F'.AvailableAt v x ∧ F'.InBlock v b ∧ F'.HasPHI b p := by
  obtain ⟨hedited, hgrowth, hscope, hblock, -⟩ := phi_grows hF hs hv ty hin
  obtain ⟨l, I, post, hat⟩ := hv
  have hpoint := point_phis hF.wellFormed (hat.mem_blocks hF.wellFormed)
  have hbody : (F.insertPHI b ty incoming).body b = _ := insertAt_body hpoint.body_eq
  refine ⟨hedited, hgrowth, F.next, rfl, hF.next_le, hscope.2 _ (List.mem_cons_self ..), hblock,
    ⟨F.next, .phi, ty, [], incoming⟩, ?_, rfl, rfl⟩
  show _ ∈ (F.insertPHI b ty incoming).body b
  rw [hbody]
  simp

end

end SchedPass
