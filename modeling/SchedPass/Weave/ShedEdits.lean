import Mathlib.Logic.Relation
import SchedPass.Weave.Shed

set_option autoImplicit false

/-! # What the edits leave

A cast of a counter and a mask, as `emitShedSite` weaves them: which users of a value stay, what a load
still reaches, and which instructions are there behind them. -/

namespace SchedPass

/-! ## Counting uses -/

/-- How often the instruction has the value as an operand. -/
def Instr.numUses (I : Instr) (v : ℕ) : ℕ :=
  (I.args ++ I.incoming.map Prod.snd).countP fun x => decide (x = .inst v)

theorem Instr.uses_iff {I : Instr} {v : ℕ} : I.uses v = true ↔ 0 < I.numUses v := by
  rw [numUses, List.countP_pos_iff]
  simp [uses]

theorem Instr.uses_congr {I J : Instr} {v w : ℕ} (h : J.numUses w = I.numUses v) :
    J.uses w = I.uses v := by
  rw [Bool.eq_iff_iff, uses_iff, uses_iff, h]

namespace Func

variable {F : Func} {M Sel b x : ℕ} {pre : List ℕ}

theorem replaceOperand_eq_inst_iff {dominated : Prop} [Decidable dominated] {y : Operand}
    (hM : x ≠ M) (hSel : x ≠ Sel) : replaceOperand M Sel dominated y = .inst x ↔ y = .inst x := by
  rw [replaceOperand_eq_inst]
  simp [hM, hSel]

theorem numUses_replaceInstr (hM : x ≠ M) (hSel : x ≠ Sel) (I : Instr) :
    (F.replaceInstr M Sel b pre I).numUses x = I.numUses x := by
  unfold replaceInstr Instr.numUses
  split
  · rfl
  · simp only [List.map_map, List.countP_append, List.countP_map]
    congr 1 <;> refine List.countP_congr fun y _ => ?_ <;>
      simp [replaceOperand_eq_inst_iff hM hSel]

theorem filter_map_replaceFrom {α : Type} (p : Instr → Bool) (f : Instr → α) (l : List Instr)
    (hp : ∀ q I, p (F.replaceInstr M Sel b q I) = p I)
    (hf : ∀ q I, f (F.replaceInstr M Sel b q I) = f I) :
    ((F.replaceFrom M Sel b pre l).filter p).map f = (l.filter p).map f := by
  induction l generalizing pre with
  | nil => rfl
  | cons I l ih =>
      rw [replaceFrom, List.filter_cons, List.filter_cons, hp]
      split
      · rw [List.map_cons, List.map_cons, hf, ih]
      · exact ih

theorem filter_insertAt {k : ℕ} {new : List Instr} (p : Instr → Bool) (hnew : new.filter p = [])
    (a : ℕ) : ((F.insertAt b k new).body a).filter p = (F.body a).filter p := by
  by_cases ha : a = b
  · subst ha
    conv_rhs => rw [← List.take_append_drop k (F.body a)]
    simp only [insertAt, Function.update_self, List.filter_append, hnew, List.append_nil]
  · rw [insertAt_body_ne ha]

/-- What the compare of a mask uses. -/
theorem uses_Keep_iff {Ctr : ℕ} {Budget : Operand} :
    (F.Keep Ctr Budget).uses x = true ↔ x = Ctr ∨ .inst x = Budget := by
  simp [Instr.uses, Keep]

/-- What the select of a mask uses, a constant aside. -/
theorem uses_Sel_iff {dropped : Operand} (hdropped : ∀ P, dropped.All P) :
    (F.Sel M dropped).uses x = true ↔ x = F.next ∨ x = M := by
  have hne : .inst x ≠ dropped := by
    rintro rfl
    exact hdropped fun _ => False
  simp [Instr.uses, Sel, hne]

end Func

namespace Analyses

open Func

/-! ## What the weaving leaves alone -/

/-- The order of a value's users stays what it was when other operands are replaced and other users
    come and go; and no cast of a counter and no mask of a floating-point value makes or unmakes a
    canonical induction variable. -/
structure Steady (A : Analyses) : Prop where
  useOrder : ∀ v (p : Opcode → Bool) l l',
    ((l.filter fun I => p I.op).map fun I => (I.id, I.numUses v)) =
      ((l'.filter fun I => p I.op).map fun I => (I.id, I.numUses v)) →
    ((A.useOrder v l).filter fun I => p I.op).map Instr.id =
      ((A.useOrder v l').filter fun I => p I.op).map Instr.id
  canonical_coerceIV : ∀ F L IV L', F.WellFormed →
    A.getCanonicalInductionVariable (F.coerceIV L IV).2 L' = A.getCanonicalInductionVariable F L'
  canonical_emitMask : ∀ F M Ctr Budget dropped L, F.WellFormed → F.typeOf M = .floatingPoint →
    A.getCanonicalInductionVariable (F.emitMask M Ctr Budget dropped) L =
      A.getCanonicalInductionVariable F L

section

variable (A : Analyses)

/-- The value has the same users in both functions, compares of the masks aside. -/
def SameUsers (F F' : Func) (x : ℕ) : Prop :=
  ∀ p : Opcode → Bool, p (.icmp true) = false →
    ((A.users F' x).filter fun I => p I.op).map Instr.id =
      ((A.users F x).filter fun I => p I.op).map Instr.id

/-- A user of `x` that the search for a score crosses. -/
def Feeds (F : Func) (x y : ℕ) : Prop :=
  y ∈ ((A.users F x).filter fun I => isArith I || isShuffle I).map Instr.id

def Reaches (F : Func) : ℕ → ℕ → Prop := Relation.ReflTransGen (A.Feeds F)

/-- The value updates a running max. -/
def FeedsMax (F : Func) (x : ℕ) : Prop := (A.users F x).any feedsMax = true

end

variable {A : Analyses} {F F' F'' : Func} {x y M L IV Ld Ctr : ℕ} {Budget dropped : Operand}

theorem SameUsers.refl (F : Func) (x : ℕ) : A.SameUsers F F x := fun _ _ => rfl

theorem SameUsers.trans (h : A.SameUsers F F' x) (h' : A.SameUsers F' F'' x) :
    A.SameUsers F F'' x :=
  fun p hp => (h' p hp).trans (h p hp)

theorem sameUsers_of_bodies (hA : A.Steady) (hblocks : F'.blocks = F.blocks)
    (h : ∀ p : Instr → Bool, (∀ I, p I = true → I.uses x = true ∧ I.op ≠ .icmp true) →
      (∀ I J : Instr, I.op = J.op → I.numUses x = J.numUses x → p I = p J) →
      ∀ b, ((F'.body b).filter p).map (fun I => (I.id, I.numUses x)) =
        ((F.body b).filter p).map fun I => (I.id, I.numUses x)) : A.SameUsers F F' x := by
  intro p hp
  refine hA.useOrder x p _ _ ?_
  simp only [Func.instructions, hblocks, List.filter_filter, List.filter_flatMap, List.map_flatMap]
  refine List.flatMap_congr fun b _ => h _ ?_ ?_ b
  · intro I hI
    rw [Bool.and_eq_true] at hI
    refine ⟨hI.2, fun hop => ?_⟩
    rw [hop, hp] at hI
    cases hI.1
  · intro I J hop huses
    rw [hop, Instr.uses_congr huses]

/-- The cast of a counter has the induction variable for its operand. -/
theorem sameUsers_coerceIV (hx : x ≠ IV) : A.SameUsers F (F.coerceIV L IV).2 x := by
  intro p _
  unfold coerceIV
  split
  · rfl
  · rw [users_insertCast hx]

theorem sameUsers_emitMask (hA : A.Steady) (hx : x < F.next) (hxM : x ≠ M)
    (hdropped : ∀ P, dropped.All P) : A.SameUsers F (F.emitMask M Ctr Budget dropped) x := by
  unfold emitMask
  split
  · exact SameUsers.refl F x
  next b k _ =>
    have hSel : x ≠ F.next + 1 := by omega
    refine sameUsers_of_bodies hA rfl fun p hp hcongr a => ?_
    -- the compare is left out, and the select uses the compare and the masked value
    have hnew : [F.Keep Ctr Budget, F.Sel M dropped].filter p = [] := by
      rw [List.filter_eq_nil_iff]
      intro I hI hpI
      rcases List.mem_cons.1 hI with rfl | hI
      · exact (hp _ hpI).2 rfl
      · rw [List.mem_singleton.1 hI] at hpI
        rcases (uses_Sel_iff hdropped).1 (hp _ hpI).1 with h | h
        · omega
        · exact hxM h
    rw [← filter_insertAt (F := F) (b := b) (k := k) p hnew a]
    refine filter_map_replaceFrom p _ _ (fun q I => ?_) fun q I => ?_
    · exact hcongr _ _ (replaceInstr_op I) (numUses_replaceInstr hxM hSel I)
    · exact Prod.ext (replaceInstr_id I) (numUses_replaceInstr hxM hSel I)

/-! ## The same users, the same score -/

/-- An instruction with the opcode and nothing else. -/
def ofOp (op : Opcode) : Instr := ⟨0, op, .other, [], []⟩

theorem SameUsers.filter (h : A.SameUsers F F' x) (q : Instr → Bool)
    (hq : ∀ I, q I = q (ofOp I.op)) (hicmp : q (ofOp (.icmp true)) = false) :
    ((A.users F' x).filter q).map Instr.id = ((A.users F x).filter q).map Instr.id := by
  have hop : q = fun I => q (ofOp I.op) := funext hq
  rw [hop]
  exact h (fun op => q (ofOp op)) hicmp

theorem SameUsers.any (h : A.SameUsers F F' x) (q : Instr → Bool) (hq : ∀ I, q I = q (ofOp I.op))
    (hicmp : q (ofOp (.icmp true)) = false) : (A.users F' x).any q = (A.users F x).any q := by
  have hany : ∀ l : List Instr, l.any q = true ↔ (l.filter q).map Instr.id ≠ [] := by
    intro l
    rw [List.any_eq_true, Ne, List.map_eq_nil_iff, List.filter_eq_nil_iff]
    simp
  rw [Bool.eq_iff_iff, hany, hany, h.filter q hq hicmp]

theorem SameUsers.feeds_iff (h : A.SameUsers F F' x) : A.Feeds F' x y ↔ A.Feeds F x y := by
  unfold Feeds
  rw [h.filter _ (fun _ => rfl) rfl]

/-- What is reached from the load has the same users in both functions. -/
def SameBelow (A : Analyses) (F F' : Func) (Ld : ℕ) : Prop :=
  ∀ x, A.Reaches F Ld x → A.SameUsers F F' x

theorem SameBelow.refl (F : Func) (Ld : ℕ) : A.SameBelow F F Ld := fun x _ => SameUsers.refl F x

theorem SameBelow.reaches_iff (h : A.SameBelow F F' Ld) : A.Reaches F' Ld x ↔ A.Reaches F Ld x := by
  constructor
  · intro hx
    induction hx with
    | refl => exact .refl
    | tail _ hfeeds ih => exact ih.tail ((h _ ih).feeds_iff.1 hfeeds)
  · intro hx
    induction hx with
    | refl => exact .refl
    | tail hreach hfeeds ih => exact ih.tail ((h _ hreach).feeds_iff.2 hfeeds)

theorem SameBelow.trans (h : A.SameBelow F F' Ld) (h' : A.SameBelow F' F'' Ld) :
    A.SameBelow F F'' Ld :=
  fun x hx => (h x hx).trans (h' x (h.reaches_iff.2 hx))

theorem feeds_of_arith (h : y ∈ ((A.users F x).filter isArith).map Instr.id) : A.Feeds F x y := by
  obtain ⟨I, hI, rfl⟩ := List.mem_map.1 h
  obtain ⟨hI, harith⟩ := List.mem_filter.1 hI
  exact List.mem_map_of_mem (List.mem_filter.2 ⟨hI, by rw [harith, Bool.true_or]⟩)

theorem SameBelow.reachesExp_eq (h : A.SameBelow F F' Ld) (hx : A.Reaches F Ld x) :
    A.reachesExp F' x = A.reachesExp F x := by
  unfold reachesExp
  rw [walk_congr (P := A.Reaches F Ld) (fun x hx y hy => hx.tail (feeds_of_arith hy)) (fun x hx => ?_)
    fun y hy => List.mem_singleton.1 hy ▸ hx]
  exact ⟨(h x hx).filter _ (fun _ => rfl) rfl, (h x hx).any _ (fun _ => rfl) rfl⟩

/-- **A load below which nothing has changed has the score it had.** -/
theorem SameBelow.findSoftmaxScore_eq (h : A.SameBelow F F' Ld) :
    A.findSoftmaxScore F' Ld = A.findSoftmaxScore F Ld := by
  refine walk_congr (P := A.Reaches F Ld) (fun x hx y hy => hx.tail hy) (fun x hx => ?_)
    fun y hy => List.mem_singleton.1 hy ▸ .refl
  rw [(h x hx).filter _ (fun _ => rfl) rfl, (h x hx).any feedsMax (fun _ => rfl) rfl,
    h.reachesExp_eq hx]
  exact ⟨rfl, rfl⟩

/-- A score is reached from its load, and updates a running max. -/
theorem reaches_of_findSoftmaxScore (h : A.findSoftmaxScore F Ld = some M) :
    A.Reaches F Ld M ∧ A.FeedsMax F M := by
  refine ⟨walk_induction (P := A.Reaches F Ld) (fun x hx y hy => hx.tail hy)
    (fun y hy => List.mem_singleton.1 hy ▸ .refl) h, ?_⟩
  have hfound := walk_found h
  rw [Bool.and_eq_true] at hfound
  exact hfound.1

/-! ## What an edit adds -/

theorem uses_replaceInstr {G : Func} {b Sel v : ℕ} {q : List ℕ} {I : Instr}
    (h : (G.replaceInstr M Sel b q I).uses v = true) :
    I.uses v = true ∨ v = Sel ∧ I.uses M = true := by
  have hoperand : ∀ {y : Operand} {dominated : Prop} [Decidable dominated],
      replaceOperand M Sel dominated y = .inst v → y = .inst v ∨ v = Sel ∧ y = .inst M :=
    fun hy => (replaceOperand_eq_inst.1 hy).imp And.left fun hy => ⟨hy.1, hy.2.1⟩
  by_cases hne : I.id = Sel
  · rw [replaceInstr, if_pos hne] at h
    exact Or.inl h
  · rw [Instr.uses_iff_mem, Instr.uses_iff_mem]
    rcases (uses_replaceInstr_iff hne).1 h with ⟨y, hy, hyv⟩ | ⟨p, hp, hpv⟩
    · rcases hoperand hyv with rfl | ⟨rfl, rfl⟩
      · exact Or.inl (Or.inl hy)
      · exact Or.inr ⟨rfl, Or.inl hy⟩
    · rcases hoperand hpv with hpv | ⟨rfl, hpM⟩
      · exact Or.inl (Or.inr ⟨p, hp, hpv⟩)
      · exact Or.inr ⟨rfl, Or.inr ⟨p, hp, hpM⟩⟩

/-- An instruction behind a mask was there before, up to the operands that became the select; or it is
    the mask's compare or its select. -/
theorem mem_emitMask {a : ℕ} {J : Instr} (hJ : J ∈ (F.emitMask M Ctr Budget dropped).body a) :
    (∃ I ∈ F.body a, J.id = I.id ∧ J.op = I.op ∧ J.ty = I.ty ∧
      ∀ v, J.uses v = true → I.uses v = true ∨ v = F.next + 1 ∧ I.uses M = true) ∨
    (J.id = F.next ∧ J.op = .icmp true ∧
      ∀ v, J.uses v = true → (F.Keep Ctr Budget).uses v = true ∨ v = F.next + 1) ∨
    J = F.Sel M dropped := by
  unfold emitMask at hJ
  split at hJ
  · exact Or.inl ⟨J, hJ, rfl, rfl, rfl, fun v hv => Or.inl hv⟩
  obtain ⟨I, hI, q, rfl⟩ := mem_replaceFrom hJ
  rcases mem_insertAt hI with hI | ⟨-, hI⟩
  · refine Or.inl ⟨I, hI, replaceInstr_id I, replaceInstr_op I, ?_, fun v hv => uses_replaceInstr hv⟩
    unfold replaceInstr
    split <;> rfl
  · rcases List.mem_cons.1 hI with rfl | hI
    · refine Or.inr (Or.inl ⟨replaceInstr_id _, replaceInstr_op _, fun v hv => ?_⟩)
      exact (uses_replaceInstr hv).imp_right And.left
    · rw [List.mem_singleton.1 hI]
      exact Or.inr (Or.inr (if_pos rfl))

/-- Every instruction is still in its block, with its opcode and its type. -/
def Keeps (F F' : Func) : Prop :=
  ∀ b, ∀ I ∈ F.body b, ∃ J ∈ F'.body b, J.id = I.id ∧ J.op = I.op ∧ J.ty = I.ty

theorem Keeps.refl (F : Func) : Keeps F F := fun _ I hI => ⟨I, hI, rfl, rfl, rfl⟩

theorem Keeps.trans (h : Keeps F F') (h' : Keeps F' F'') : Keeps F F'' := by
  intro b I hI
  obtain ⟨J, hJ, hid, hop, hty⟩ := h b I hI
  obtain ⟨K, hK, hid', hop', hty'⟩ := h' b J hJ
  exact ⟨K, hK, hid'.trans hid, hop'.trans hop, hty'.trans hty⟩

theorem Keeps.computed (h : Keeps F F') (hx : Computed F x) : Computed F' x := by
  obtain ⟨b, I, hI, rfl, hphi, hterm⟩ := hx
  obtain ⟨J, hJ, hid, hop, -⟩ := h b I hI
  exact ⟨b, J, hJ, hid, hop ▸ hphi, hop ▸ hterm⟩

theorem keeps_insertAt {b k : ℕ} {new : List Instr} : Keeps F (F.insertAt b k new) :=
  fun a I hI => ⟨I, (sublist_insertAt a).subset hI, rfl, rfl, rfl⟩

theorem keeps_replaceUses (M Sel : ℕ) : Keeps F (F.replaceUses M Sel) := by
  intro a I hI
  have hty : ∀ (q : List ℕ) (I : Instr), (F.replaceInstr M Sel a q I).ty = I.ty := by
    intro q I
    unfold replaceInstr
    split <;> rfl
  have hmem : (I.id, I.op, I.ty) ∈
      ((F.replaceUses M Sel).body a).map fun I => (I.id, I.op, I.ty) := by
    rw [show ((F.replaceUses M Sel).body a).map (fun I => (I.id, I.op, I.ty)) = _ from
      map_replaceFrom _ (F.body a) fun q I =>
        Prod.ext (replaceInstr_id I) (Prod.ext (replaceInstr_op I) (hty q I))]
    exact List.mem_map_of_mem hI
  obtain ⟨J, hJ, hIJ⟩ := List.mem_map.1 hmem
  simp only [Prod.mk.injEq] at hIJ
  exact ⟨J, hJ, hIJ⟩

theorem keeps_coerceIV (L IV : ℕ) : Keeps F (F.coerceIV L IV).2 := by
  unfold coerceIV
  split
  · exact Keeps.refl F
  · exact keeps_insertAt

theorem keeps_emitMask : Keeps F (F.emitMask M Ctr Budget dropped) := by
  unfold emitMask
  split
  · exact Keeps.refl F
  · exact keeps_insertAt.trans (keeps_replaceUses M _)

theorem typeOf_of_mem (hF : F.WellFormed) {b : ℕ} {I : Instr} (hI : I ∈ F.body b) :
    F.typeOf I.id = I.ty := by
  rw [typeOf, hF.instr_eq hI]
  rfl

theorem Keeps.typeOf_eq (h : Keeps F F') (hF : F.WellFormed) (hF' : F'.WellFormed) {b : ℕ}
    {I : Instr} (hI : I ∈ F.body b) : F'.typeOf I.id = F.typeOf I.id := by
  obtain ⟨J, hJ, hid, -, hty⟩ := h b I hI
  rw [typeOf_of_mem hF hI, ← hid, typeOf_of_mem hF' hJ, hty]

/-- Only a defined value has a floating-point type. -/
theorem exists_of_typeOf (h : F.typeOf x = .floatingPoint) : ∃ b, ∃ I ∈ F.body b, I.id = x := by
  unfold typeOf at h
  cases hI : F.instr x with
  | none =>
      rw [hI] at h
      cases h
  | some I =>
      obtain ⟨b, -, hb⟩ := List.mem_flatMap.1 (List.mem_of_find?_eq_some hI)
      exact ⟨b, I, hb, by simpa using List.find?_some hI⟩

theorem Keeps.float (h : Keeps F F') (hF : F.WellFormed) (hF' : F'.WellFormed)
    (hx : F.typeOf x = .floatingPoint) : F'.typeOf x = .floatingPoint := by
  obtain ⟨b, I, hI, rfl⟩ := exists_of_typeOf hx
  rw [h.typeOf_eq hF hF' hI, hx]

/-! ## What every turn keeps -/

/-- Uses are of values below `next`, and a running max is over floating-point values. -/
structure Tidy (A : Analyses) (F : Func) : Prop where
  closed : ∀ b, ∀ I ∈ F.body b, ∀ v, I.uses v = true → v < F.next
  float : ∀ b, ∀ I ∈ F.body b, feedsMax I = true → ∀ v, I.uses v = true →
    F.typeOf v = .floatingPoint

/-- An edited function, seen from the one it was made from: what a load reaches of the old values, it
    reached before. -/
structure Woven (A : Analyses) (F F' : Func) : Prop where
  next_le : F.next ≤ F'.next
  keeps : Keeps F F'
  canonical : ∀ L, A.getCanonicalInductionVariable F' L = A.getCanonicalInductionVariable F L
  reaches : ∀ Ld x, Computed F Ld → x < F.next → A.Reaches F' Ld x → A.Reaches F Ld x

theorem Woven.refl (F : Func) : A.Woven F F := ⟨le_rfl, Keeps.refl F, fun _ => rfl, fun _ _ _ _ h => h⟩

theorem Woven.trans (h : A.Woven F F') (h' : A.Woven F' F'') : A.Woven F F'' where
  next_le := h.next_le.trans h'.next_le
  keeps := h.keeps.trans h'.keeps
  canonical := fun L => (h'.canonical L).trans (h.canonical L)
  reaches := fun Ld x hLd hx hreach =>
    h.reaches Ld x hLd hx (h'.reaches Ld x (h.keeps.computed hLd) (hx.trans_le h.next_le) hreach)

theorem Computed.lt (hF : F.WellFormed) (hx : Computed F x) : x < F.next := by
  obtain ⟨b, I, hI, rfl, -⟩ := hx
  exact hF.fresh b I.id (List.mem_map_of_mem hI)

/-- What a load reaches is computed by instructions that are neither PHIs nor terminators. -/
theorem computed_of_reaches (hA : A.Sound F.cfg) (hLd : Computed F Ld) (h : A.Reaches F Ld x) :
    Computed F x := by
  induction h with
  | refl => exact hLd
  | tail _ hfeeds _ =>
      obtain ⟨b, I, hI, -, hcross, rfl⟩ := mem_users hA hfeeds
      obtain ⟨hphi, hterm⟩ := op_of_crossed hcross
      exact ⟨b, I, hI, rfl, hphi, hterm⟩

section Cast

variable {P : Instr}

theorem sameBelow_coerceIV (hA : A.Sound F.cfg) (hF : F.WellFormed) (hP : P ∈ F.body L)
    (hop : P.op = .phi) (hLd : Computed F Ld) : A.SameBelow F (F.coerceIV L P.id).2 Ld :=
  fun _ hx => sameUsers_coerceIV ((computed_of_reaches hA hLd hx).ne_phi hF hP hop)

theorem next_le_coerceIV (L IV : ℕ) : F.next ≤ (F.coerceIV L IV).2.next := by
  unfold coerceIV
  split
  · exact le_rfl
  · exact Nat.le_add_right ..

theorem woven_coerceIV (hA : A.Sound F.cfg) (hsteady : A.Steady) (hF : F.WellFormed)
    (hP : P ∈ F.body L) (hop : P.op = .phi) : A.Woven F (F.coerceIV L P.id).2 where
  next_le := next_le_coerceIV L P.id
  keeps := keeps_coerceIV L P.id
  canonical := fun L' => hsteady.canonical_coerceIV F L P.id L' hF
  reaches := fun _ _ hLd _ => (sameBelow_coerceIV hA hF hP hop hLd).reaches_iff.1

theorem tidy_coerceIV (hF : F.WellFormed) (htidy : A.Tidy F) (hP : P ∈ F.body L)
    (hop : P.op = .phi) : A.Tidy (F.coerceIV L P.id).2 := by
  have hF' := wellFormed_coerceIV hF hP hop
  have hmem : ∀ b, ∀ I ∈ (F.coerceIV L P.id).2.body b, I ∈ F.body b ∨ I = F.castIV P.id := by
    intro b I hI
    unfold coerceIV at hI
    split at hI
    · exact Or.inl hI
    · exact (mem_insertAt hI).imp_right fun h => List.mem_singleton.1 h.2
  constructor
  · intro b I hI v hv
    refine lt_of_lt_of_le ?_ (next_le_coerceIV L P.id)
    rcases hmem b I hI with hI | rfl
    · exact htidy.closed b I hI v hv
    · have hvP : v = P.id := by simpa [castIV, Instr.uses] using hv
      exact hvP ▸ hF.fresh L P.id (List.mem_map_of_mem hP)
  · intro b I hI hmax v hv
    rcases hmem b I hI with hI | rfl
    · exact (keeps_coerceIV L P.id).float hF hF' (htidy.float b I hI hmax v hv)
    · cases hmax

end Cast

section Mask

theorem sameBelow_emitMask (hA : A.Sound F.cfg) (hsteady : A.Steady) (hF : F.WellFormed)
    (hdropped : ∀ P, dropped.All P) (hLd : Computed F Ld) (hM : ¬ A.Reaches F Ld M) :
    A.SameBelow F (F.emitMask M Ctr Budget dropped) Ld := by
  intro x hx
  refine sameUsers_emitMask hsteady ((computed_of_reaches hA hLd hx).lt hF) ?_ hdropped
  rintro rfl
  exact hM hx

/-- A path through the masked function is a path through the function, with the masked value for the
    select. -/
theorem reaches_emitMask (hA : A.Sound F.cfg) (hF : F.WellFormed) (htidy : A.Tidy F)
    (hdropped : ∀ P, dropped.All P) (hLd : Computed F Ld)
    (h : A.Reaches (F.emitMask M Ctr Budget dropped) Ld x) :
    A.Reaches F Ld x ∨ x = F.next + 1 ∧ A.Reaches F Ld M := by
  have hext : F.Extends (F.emitMask M Ctr Budget dropped) := extends_emitMask
  have hsound : A.Sound (F.emitMask M Ctr Budget dropped).cfg := hext.cfg_eq ▸ hA
  induction h with
  | refl => exact Or.inl .refl
  | @tail x y _ hfeeds ih =>
      obtain ⟨b, J, hJ, huses, hcross, rfl⟩ := mem_users hsound hfeeds
      have hx : x ≠ F.next := by
        rintro rfl
        rcases ih with hreach | ⟨hx, -⟩
        · exact absurd ((computed_of_reaches hA hLd hreach).lt hF) (lt_irrefl _)
        · omega
      rcases mem_emitMask hJ with ⟨I, hI, hid, hop, -, hIuses⟩ | ⟨-, hop, -⟩ | rfl
      · -- an old instruction, which used `x` or, where `x` is the select, the masked value
        have hIcross : (isArith I || isShuffle I) = true := by
          unfold isArith isShuffle at hcross ⊢
          rwa [← hop]
        have hfeed : ∀ v, I.uses v = true → A.Feeds F v J.id := by
          intro v hv
          rw [hid]
          refine List.mem_map_of_mem (List.mem_filter.2 ⟨(hA.mem_useOrder _ _ _).2 ?_, hIcross⟩)
          exact List.mem_filter.2 ⟨List.mem_flatMap.2 ⟨b, hF.body_mem b I hI, hI⟩, hv⟩
        left
        rcases ih with hreach | ⟨rfl, hreach⟩
        · rcases hIuses x huses with hI | ⟨rfl, -⟩
          · exact hreach.tail (hfeed x hI)
          · exact absurd ((computed_of_reaches hA hLd hreach).lt hF) (by omega)
        · rcases hIuses _ huses with hIx | ⟨-, hIM⟩
          · exact absurd (htidy.closed b I hI _ hIx) (by omega)
          · exact hreach.tail (hfeed M hIM)
      · simp [isArith, isShuffle, hop] at hcross
      · -- the select uses the compare, the masked value and a constant
        right
        refine ⟨rfl, ?_⟩
        have hxM : x = M := ((uses_Sel_iff hdropped).1 huses).resolve_left hx
        rcases ih with hreach | ⟨-, hreach⟩
        · exact hxM ▸ hreach
        · exact hreach

theorem next_le_emitMask : F.next ≤ (F.emitMask M Ctr Budget dropped).next := by
  unfold emitMask
  split
  · exact le_rfl
  · exact Nat.le_add_right ..

theorem woven_emitMask (hA : A.Sound F.cfg) (hsteady : A.Steady) (hF : F.WellFormed)
    (htidy : A.Tidy F) (hdropped : ∀ P, dropped.All P)
    (hfloat : F.typeOf M = .floatingPoint) : A.Woven F (F.emitMask M Ctr Budget dropped) where
  next_le := next_le_emitMask
  keeps := keeps_emitMask
  canonical := fun L => hsteady.canonical_emitMask F M Ctr Budget dropped L hF hfloat
  reaches := by
    intro Ld x hLd hx hreach
    rcases reaches_emitMask hA hF htidy hdropped hLd hreach with h | ⟨rfl, -⟩
    · exact h
    · omega

/-- The mask is woven: what is masked has a next instruction. -/
theorem emitMask_computed (Ctr : ℕ) (Budget dropped : Operand) (hF : F.WellFormed)
    (hM : Computed F M) :
    ∃ b k, F.emitMask M Ctr Budget dropped =
      (F.insertAt b k [F.Keep Ctr Budget, F.Sel M dropped]).replaceUses M (F.next + 1) := by
  obtain ⟨b, l, I, post, hb, rfl, -, ⟨r, T, rfl⟩, -⟩ := hM.split hF
  exact ⟨b, _, emitMask_eq hF hb (List.concat_ne_nil T r)⟩

theorem Sel_mem_insertAt {b k : ℕ} :
    F.Sel M dropped ∈ (F.insertAt b k [F.Keep Ctr Budget, F.Sel M dropped]).body b := by
  simp [insertAt]

/-- The select has the type of what it masks. -/
theorem typeOf_select (hF : F.WellFormed) (hM : Computed F M) :
    (F.emitMask M Ctr Budget dropped).typeOf (F.next + 1) = F.typeOf M := by
  have hF' : (F.emitMask M Ctr Budget dropped).WellFormed := wellFormed_emitMask hF hM
  obtain ⟨b, k, heq⟩ := emitMask_computed Ctr Budget dropped hF hM
  have hsel : F.Sel M dropped ∈ (F.insertAt b k [F.Keep Ctr Budget, F.Sel M dropped]).body b :=
    Sel_mem_insertAt
  obtain ⟨J, hJ, hid, -, hty⟩ := keeps_replaceUses M (F.next + 1) b _ hsel
  rw [← heq] at hJ
  have htype := typeOf_of_mem hF' hJ
  rw [hid, hty] at htype
  exact htype

theorem tidy_emitMask (hF : F.WellFormed) (htidy : A.Tidy F) (hM : Computed F M)
    (hCtr : Ctr < F.next) (hBudget : Budget.All fun v => v < F.next)
    (hdropped : ∀ P, dropped.All P) : A.Tidy (F.emitMask M Ctr Budget dropped) := by
  have hF' : (F.emitMask M Ctr Budget dropped).WellFormed := wellFormed_emitMask hF hM
  have hnext : (F.emitMask M Ctr Budget dropped).next = F.next + 2 := by
    obtain ⟨b, k, heq⟩ := emitMask_computed Ctr Budget dropped hF hM
    rw [heq]
    rfl
  constructor
  · intro b J hJ v hv
    rw [hnext]
    rcases mem_emitMask hJ with ⟨I, hI, -, -, -, hIuses⟩ | ⟨-, -, hkeep⟩ | rfl
    · rcases hIuses v hv with hIv | ⟨rfl, -⟩
      · exact (htidy.closed b I hI v hIv).trans (by omega)
      · omega
    · rcases hkeep v hv with hkv | rfl
      · rcases uses_Keep_iff.1 hkv with rfl | rfl
        · omega
        · exact Nat.lt_add_right 2 hBudget
      · omega
    · have hlt := hM.lt hF
      rcases (uses_Sel_iff hdropped).1 hv with rfl | rfl
      · omega
      · omega
  · intro b J hJ hmax v hv
    rcases mem_emitMask hJ with ⟨I, hI, -, hop, -, hIuses⟩ | ⟨-, hop, -⟩ | rfl
    · have hImax : feedsMax I = true := by
        unfold feedsMax at hmax ⊢
        rwa [← hop]
      rcases hIuses v hv with hIv | ⟨rfl, hIM⟩
      · exact keeps_emitMask.float hF hF' (htidy.float b I hI hImax v hIv)
      · rw [typeOf_select hF hM]
        exact htidy.float b I hI hImax M hIM
    · simp [feedsMax, hop] at hmax
    · cases hmax

end Mask

/-- In a valid function every used value is defined. -/
theorem lt_of_uses (hF : F.WellFormed) (hV : F.Valid) {b : ℕ} {I : Instr} (hI : I ∈ F.body b)
    (huses : I.uses x = true) : x < F.next := by
  have havail : ∀ {a pre}, pre ⊆ F.ids a → F.Available a pre x → x < F.next := by
    rintro a pre hpre (hx | ⟨c, hx, -⟩)
    · exact hF.fresh a x (hpre hx)
    · exact hF.fresh c x hx
  obtain ⟨l, post, hbody⟩ := List.append_of_mem hI
  have hok := hV b
  rw [hbody, bodyOk_append] at hok
  rcases Instr.uses_iff_mem.1 huses with hargs | ⟨p, hp, hpx⟩
  · refine havail ?_ (hok.2.1.1 _ hargs)
    rw [ids, hbody, List.map_append]
    exact List.subset_append_left ..
  · have hin := hok.2.1.2 p hp
    rw [hpx] at hin
    exact havail (List.Subset.refl _) hin

/-! ## A mask takes over -/

/-- What stands behind `I` also stands behind what is inserted right behind `I`. -/
theorem mem_of_split {l p q l₁ l₂ post new : List Instr} {I J S : Instr}
    (hnodup : (l ++ [I] ++ new ++ post).Nodup) (hold : l ++ I :: post = p ++ J :: q) (hI : I ∈ p)
    (hnew : l ++ [I] ++ new ++ post = l₁ ++ J :: l₂) (hS : S ∈ new) : S ∈ l₁ := by
  obtain ⟨p₁, p₂, rfl⟩ := List.append_of_mem hI
  have hnodup' : (l ++ I :: post).Nodup := by
    refine hnodup.sublist ?_
    rw [List.append_cons l I post]
    exact (List.sublist_append_left (l ++ [I]) new).append (List.Sublist.refl post)
  rw [List.append_assoc, List.cons_append] at hold
  rw [List.nodup_middle, List.nodup_cons, List.mem_append, not_or] at hnodup'
  obtain ⟨rfl, -, rfl⟩ := (List.append_cons_inj_of_notMem hnodup'.1.1 hnodup'.1.2).1 hold
  rw [← List.append_assoc] at hnodup hnew
  have hJ := (List.nodup_cons.1 (List.nodup_middle.1 hnodup)).1
  rw [List.mem_append, not_or] at hJ
  obtain ⟨rfl, -⟩ := (List.append_cons_inj_of_notMem hJ.1 hJ.2).1 hnew
  exact List.mem_append_left _ (List.mem_append_right _ hS)

/-- The select dominates what the masked value is available to, and in their own block what stands
    behind it. -/
theorem dominates_Sel {b c k : ℕ} {q q' : List ℕ} (hF : F.WellFormed)
    (hG : (F.insertAt b k [F.Keep Ctr Budget, F.Sel M dropped]).WellFormed) (hM : M ∈ F.ids b)
    (hq : M ∈ q → F.next + 1 ∈ q') (havail : F.Available c q M) :
    (F.insertAt b k [F.Keep Ctr Budget, F.Sel M dropped]).Dominates c q' (F.next + 1) := by
  refine hG.dominates_iff.2 (havail.imp hq ?_)
  rintro ⟨d, hd, hstrict⟩
  exact ⟨d, hF.ids_block b d M hM hd ▸ List.mem_map_of_mem Sel_mem_insertAt, hstrict⟩

/-- **In a valid function a mask takes over every use of what it masks**, its own aside. -/
theorem not_uses_emitMask (hF : F.WellFormed) (hV : F.Valid) (hM : Computed F M) (hCtr : Ctr ≠ M)
    (hBudget : Budget ≠ .inst M) {a : ℕ} {J : Instr}
    (hJ : J ∈ (F.emitMask M Ctr Budget dropped).body a) (hne : J.id ≠ F.next + 1) :
    J.uses M = false := by
  have hMlt := hM.lt hF
  obtain ⟨b, l, I, post, hb, rfl, -, ⟨r, T, rfl⟩, hphi⟩ := hM.split hF
  have hIb : I ∈ F.body b := hb ▸ List.mem_append_right l (List.mem_cons_self ..)
  have hpost : r ++ [T] ≠ [] := List.concat_ne_nil T r
  rw [emitMask_eq hF hb hpost] at hJ
  have hb' : F.body b = (l ++ [I]) ++ (r ++ [T]) := by rw [hb, List.append_cons]
  have hfresh : F.Fresh [F.Keep Ctr Budget, F.Sel I.id dropped] := fresh_mask
  have hG := hF.insertAt hfresh hb' hphi hpost
  have hGb : (F.insertAt b (l ++ [I]).length [F.Keep Ctr Budget, F.Sel I.id dropped]).body b = _ :=
    insertAt_body hb'
  have hIids : I.id ∈ F.ids b := List.mem_map_of_mem hIb
  obtain ⟨l₁, J', l₂, hbody, rfl⟩ := mem_replaceFrom_split hJ
  rw [replaceInstr_id] at hne
  have hmem : J' ∈ (F.insertAt b (l ++ [I]).length [F.Keep Ctr Budget, F.Sel I.id dropped]).body a :=
    hbody ▸ List.mem_append_right _ (List.mem_cons_self ..)
  rcases mem_insertAt hmem with hold | ⟨-, hnew⟩
  · obtain ⟨p, q, hpq⟩ := List.append_of_mem hold
    have hok := hV a
    rw [hpq, bodyOk_append] at hok
    refine not_uses_replaceInstr hne (by omega) (fun harg => ?_) fun x hx hxM => ?_
    · refine dominates_Sel hF hG hIids (fun hIp => ?_) (hok.2.1.1 _ harg)
      obtain ⟨I', hI', hid⟩ := List.mem_map.1 hIp
      have hI'a : I' ∈ F.body a := hpq ▸ List.mem_append_left _ hI'
      obtain rfl := hF.eq_of_id hI'a hIb hid
      obtain rfl := hF.ids_block b a I'.id hIids (List.mem_map_of_mem hI'a)
      rw [hGb] at hbody
      have hnodup := hG.ids_nodup b
      rw [ids, hGb] at hnodup
      exact List.mem_map_of_mem (f := Instr.id) (mem_of_split hnodup.of_map (hb.symm.trans hpq) hI'
        hbody (List.mem_cons_of_mem _ (List.mem_cons_self ..)))
    · have hin := hok.2.1.2 x hx
      rw [hxM] at hin
      refine dominates_Sel hF hG hIids (fun hIx => ?_) hin
      exact hF.ids_block b x.1 I.id hIids hIx ▸ List.mem_map_of_mem Sel_mem_insertAt
  · rcases List.mem_cons.1 hnew with rfl | hnew
    · refine not_uses_replaceInstr hne (by omega) (fun harg => ?_) fun x hx => ?_
      · simp only [Keep, List.mem_cons, Operand.inst.injEq, List.not_mem_nil, or_false] at harg
        exact absurd harg (not_or.2 ⟨hCtr.symm, hBudget.symm⟩)
      · cases hx
    · exact absurd (congrArg Instr.id (List.mem_singleton.1 hnew)) hne
end Analyses

end SchedPass
