import SchedPass.Weave.Weaver

set_option autoImplicit false

/-! # What the emitted code does to the function

Each part of the weaving, started where its operands are in scope, leaves an instrumented function
behind, with its own values in scope. Without the task indirection and the shed masks so does the whole
of it (`Weaver.edited_run`). -/

namespace SchedPass

open Func

namespace Weaver

variable {W : Weaver} {B : Origin} {F : Func} {v : ℕ} {x G Task : Operand} {xs : List Operand}

@[simp] theorem closed_const (c : Constant) : (W.const c).closed = true := rfl

@[simp] theorem closed_getInt (width : ℕ) (value : ℤ) : (W.getInt width value).closed = true := rfl

@[simp] theorem closed_getTrue : W.getTrue.closed = true := rfl

@[simp] theorem closed_getFalse : W.getFalse.closed = true := rfl

@[simp] theorem closed_noBudget : W.noBudget.closed = true := rfl

/-- The code leaves an instrumented version of the origin, with everything in scope that was. -/
abbrev Weaves {α : Type} (B : Origin) (c : Emit α) (F : Func) (Q : α → Func → Prop) : Prop :=
  Grows (Edited B) Growth c F Q

section

variable (hF : Edited B F) (hs : F.Scope v xs)

include hF hs

theorem createAsm_grows (Asm : String) (ty : Ty) {args : List Operand}
    (hargs : ∀ x ∈ args, x ∈ xs ∨ x.closed = true) :
    Weaves B (createAsm v Asm ty args) F fun x F' => F'.Scope v (x :: xs) :=
  create_grows hF hs rfl ty hargs

theorem readSReg_grows (name : String) (axis : Axis) :
    Weaves B (readSReg v name axis) F fun x F' => F'.Scope v (x :: xs) :=
  create_grows hF hs rfl _ (by simp)

theorem threadIsZero_grows :
    Weaves B (W.threadIsZero v) F fun x F' => F'.AvailableAt v x := by
  refine (readSReg_grows hF hs _ _).bind fun X F hF _ hs => ?_
  refine (readSReg_grows hF hs _ _).bind fun Y F hF _ hs => ?_
  refine (readSReg_grows hF hs _ _).bind fun Z F hF _ hs => ?_
  refine (create_grows hF hs rfl _ (by simp)).bind fun XY F hF _ hs => ?_
  refine (create_grows hF hs rfl _ (by simp)).bind fun Or F hF _ hs => ?_
  exact (create_grows hF hs rfl _ (by simp)).mono fun x F _ _ hs => hs.2 x (by simp)

theorem rtBuffer_grows (s : RtSlot) (Name : String) :
    Weaves B (W.rtBuffer s Name v) F fun p F' => F'.Scope v (p.1 :: p.2 :: xs) := by
  unfold rtBuffer
  split_ifs
  · refine (create_grows hF hs rfl _ (by simp)).bind fun P F hF _ hs => ?_
    refine (create_grows hF hs rfl _ (by simp)).bind fun NonNull F hF _ hs => ?_
    refine (create_grows hF hs rfl _ (by simp)).bind fun G F hF _ hs => ?_
    exact .pure hF (hs.mono (by simp +contextual [List.subset_def]))
  · exact .pure hF ((hs.cons (hs.1.available (W.closed_getFalse))).cons
      (hs.1.available (W.closed_const _)))
  · refine (create_grows hF hs rfl _ (by simp)).bind fun AddrV F hF _ hs => ?_
    refine (create_grows hF hs rfl _ (by simp)).bind fun P F hF _ hs => ?_
    exact .pure hF (((hs.cons (hs.1.available (W.closed_getTrue)))).mono
      (by simp +contextual [List.subset_def]))

/-- A value of the new block is joined with a constant. -/
theorem join_grows {t Head : ℕ} {ys : List Operand} (ht : F.Scope t ys) (hHead : Head ∈ F.blocks)
    (hx : F.AvailableAt t x) {y : Operand} (hy : y.closed = true) (ty : Ty) :
    Weaves B (getParent v >>= fun Tail => getParent t >>= fun Then =>
      CreatePHI Tail ty [(Then, x), (Head, y)]) F fun z F' =>
        F'.AvailableAt v z ∧ z.All (B.next ≤ ·) := by
  refine (getParent_grows hF hs).bind fun Tail G hG _ hTail => ?_
  obtain ⟨rfl, hTail⟩ := hTail
  refine (getParent_grows hG ht).bind fun Then G hG _ hThen => ?_
  obtain ⟨rfl, hThen⟩ := hThen
  refine (phi_hasPHI hG hs hTail ty ?_).mono fun z F _ _ hz => ?_
  · refine List.forall_mem_cons.2 ⟨hThen.availableAtEnd hG.wellFormed hx,
      List.forall_mem_singleton.2 ⟨hHead, Operand.All.of_closed hy _⟩⟩
  · obtain ⟨p, rfl, hp, hav, -⟩ := hz
    exact ⟨hav, hp⟩

theorem readTimerOff_grows :
    Weaves B (W.readTimerOff v) F fun x F' => F'.AvailableAt v x ∧ x.All (B.next ≤ ·) := by
  unfold readTimerOff
  split_ifs
  · exact .pure hF ⟨hs.1.available W.closed_getFalse, trivial⟩
  · refine (rtBuffer_grows hF hs _ _).bind fun p F hF _ hs => ?_
    refine (getParent_grows hF hs).bind fun FlagHead F hF hgrowth hHead => ?_
    obtain ⟨rfl, l, I, post, hat⟩ := hHead
    have hblock := hat.mem_blocks hF.wellFormed
    refine (split_grows hF hs (by simp)).bind fun t F hF hg₁ ht => ?_
    refine (create_grows hF ht rfl _ (by simp)).bind fun FlagsP F hF hg₂ ht => ?_
    refine (create_grows hF ht rfl _ (by simp)).bind fun Flags F hF hg₃ ht => ?_
    refine (create_grows hF ht rfl _ (by simp)).bind fun Bit F hF hg₄ ht => ?_
    refine (create_grows hF ht rfl _ (by simp)).bind fun OffThen F hF hg₅ ht => ?_
    have hg := hg₁.trans (hg₂.trans (hg₃.trans (hg₄.trans hg₅)))
    exact join_grows hF (hg.scope hs) ht (hg.blocks_subset hblock) (ht.2 _ (by simp))
      W.closed_getFalse _

theorem emitRowOff_grows (hTask : Task ∈ xs) :
    Weaves B (W.emitRowOff v Task) F fun x F' => F'.AvailableAt v x := by
  refine (create_grows hF hs rfl _ (by simp [hTask])).bind fun Task64 F hF _ hs => ?_
  refine (create_grows hF hs rfl _ (by simp)).bind fun Rows F hF _ hs => ?_
  exact (create_grows hF hs rfl _ (by simp)).mono fun x F _ _ hs => hs.2 x (by simp)

theorem emitPolicyRow_grows (hG : G ∈ xs) (hTask : Task ∈ xs) :
    Weaves B (W.emitPolicyRow v G Task) F fun p F' =>
      F'.AvailableAt v p.1 ∧ F'.AvailableAt v p.2 := by
  refine (create_grows hF hs rfl _ (by simp [hG])).bind fun LamP F hF _ hs => ?_
  refine (create_grows hF hs rfl _ (by simp)).bind fun Lam F hF _ hs => ?_
  refine (emitRowOff_grows hF hs (by simp [hTask])).bind fun RowOff F hF hgrowth hx => ?_
  have hs := (hgrowth.scope hs).cons hx
  refine (create_grows hF hs rfl _ (by simp [hG])).bind fun QP F hF _ hs => ?_
  refine (create_grows hF hs rfl _ (by simp)).bind fun Q F hF _ hs => ?_
  refine (create_grows hF hs rfl _ (by simp)).bind fun HintOff F hF _ hs => ?_
  refine (create_grows hF hs rfl _ (by simp [hG])).bind fun HintP F hF _ hs => ?_
  refine (create_grows hF hs rfl _ (by simp)).bind fun Hint F hF _ hs => ?_
  refine (create_grows hF hs rfl _ (by simp)).bind fun Gain F hF _ hs => ?_
  refine (create_grows hF hs rfl _ (by simp)).bind fun Price F hF _ hs => ?_
  refine (create_grows hF hs rfl _ (by simp)).bind fun Net F hF _ hs => ?_
  refine (create_grows hF hs rfl _ (by simp)).bind fun Score F hF _ hs => ?_
  refine (create_grows hF hs rfl _ (by simp)).bind fun ScoreOk F hF _ hs => ?_
  refine (create_grows hF hs rfl _ (by simp)).bind fun HintAuto F hF _ hs => ?_
  refine (create_grows hF hs rfl _ (by simp)).bind fun HintUrgent F hF _ hs => ?_
  refine (create_grows hF hs rfl _ (by simp)).bind fun HintPolite F hF _ hs => ?_
  refine (create_grows hF hs rfl _ (by simp)).bind fun AutoOk F hF _ hs => ?_
  refine (create_grows hF hs rfl _ (by simp)).bind fun UrgentThen F hF _ hs => ?_
  exact .pure hF ⟨hs.2 _ (by simp), hs.2 _ (by simp)⟩

theorem emitUse_grows (s : RtSlot) (Name : String) (hTask : Task ∈ xs) :
    Weaves B (W.emitUse s Name v Task) F fun p F' =>
      F'.AvailableAt v p.1 ∧ F'.AvailableAt v p.2 := by
  refine (rtBuffer_grows hF hs _ _).bind fun p F hF _ hs => ?_
  refine (create_grows hF hs rfl _ (by simp [hTask])).bind fun InB F hF _ hs => ?_
  refine (create_grows hF hs rfl _ (by simp)).bind fun Use F hF _ hs => ?_
  exact .pure hF ⟨hs.2 _ (by simp), hs.2 _ (by simp)⟩

theorem emitPolicyFlags_grows (hTask : Task ∈ xs) :
    Weaves B (W.emitPolicyFlags v Task) F fun p F' =>
      F'.AvailableAt v p.Urgent ∧ F'.AvailableAt v p.Polite := by
  refine (emitUse_grows hF hs _ _ hTask).bind fun p F hF hgrowth hp => ?_
  have hs := ((hgrowth.scope hs).cons hp.2).cons hp.1
  refine (getParent_grows hF hs).bind fun Head F hF hgrowth hHead => ?_
  obtain ⟨rfl, l, I, post, hat⟩ := hHead
  have hblock := hat.mem_blocks hF.wellFormed
  refine (split_grows hF hs (by simp)).bind fun t F hF hg₁ ht => ?_
  refine (emitPolicyRow_grows hF ht (by simp) (by simp [hTask])).bind fun q F hF hg₂ hq => ?_
  have hg := hg₁.trans hg₂
  have hs := hg.scope hs
  have hblock := hg.blocks_subset hblock
  refine (getParent_grows hF hs).bind fun Tail F hF _ hTail => ?_
  obtain ⟨rfl, hTail⟩ := hTail
  refine (getParent_grows hF (hg₂.scope ht)).bind fun Then F hF _ hThen => ?_
  obtain ⟨rfl, hThen⟩ := hThen
  have hclosed : F.AvailableAtEnd Head W.getFalse := ⟨hblock, trivial⟩
  have hfst := hThen.availableAtEnd hF.wellFormed hq.1
  have hsnd := hThen.availableAtEnd hF.wellFormed hq.2
  refine (phi_grows hF hs hTail _ ?_).bind fun Urgent F hF _ hUrgent => ?_
  · exact List.forall_mem_cons.2 ⟨hfst, List.forall_mem_singleton.2 hclosed⟩
  obtain ⟨hs, hTail, hend⟩ := hUrgent
  refine (phi_grows hF hs hTail _ ?_).bind fun Polite F hF _ hPolite => ?_
  · exact List.forall_mem_cons.2 ⟨hend _ _ hsnd, List.forall_mem_singleton.2 (hend _ _ hclosed)⟩
  exact .pure hF ⟨hPolite.1.2 _ (by simp), hPolite.1.2 _ (by simp)⟩

/-! ## At a site -/

theorem getPointerOperand_grows :
    Weaves B (SchedPass.getPointerOperand v) F fun x F' => F' = F ∧ F.AvailableAt v x := by
  obtain ⟨b, l, I, post, hat⟩ := hs.1
  have hI : I ∈ F.body b := hat.body_eq ▸ List.mem_append_right l (List.mem_cons_self ..)
  refine ⟨hF, Std.Refl.refl F, rfl, ?_⟩
  show F.AvailableAt v (((F.instr v).map Instr.getPointerOperand).getD (.otherConst 0))
  rw [← hat.id_eq, hF.wellFormed.instr_eq hI, hat.id_eq]
  show F.AvailableAt v (I.args.headD (.otherConst 0))
  cases hargs : I.args with
  | nil => exact hs.1.available rfl
  | cons x rest => exact hat.available_of_mem hF.valid (by simp [hargs])

/-- What an instruction can use, the next one can. -/
theorem getNextNode_grows : Weaves B (SchedPass.getNextNode v) F fun o F' =>
    F' = F ∧ ∀ w ∈ o, ∀ x, F.AvailableAt v x → F.AvailableAt w x := by
  obtain ⟨b, l, I, post, hat⟩ := hs.1
  refine ⟨hF, Std.Refl.refl F, rfl, ?_⟩
  show ∀ w ∈ ((F.getNextNode v).bind fun p => (F.body p.1)[p.2]?.map Instr.id), _
  intro w hw x hx
  unfold Func.getNextNode at hw
  rw [hat.parent_eq hF.wellFormed] at hw
  dsimp only at hw
  rw [hat.idxOf_eq hF.wellFormed] at hw
  split_ifs at hw
  · -- the instruction behind `v` is the first of `post`
    simp only [Option.bind_some, hat.body_eq, Option.mem_def, Option.map_eq_some_iff] at hw
    obtain ⟨J, hJ, rfl⟩ := hw
    have hone : l.length + 1 - l.length = 0 + 1 := by omega
    rw [List.getElem?_append_right (Nat.le_succ _), Nat.succ_eq_add_one, hone,
      List.getElem?_cons_succ] at hJ
    obtain ⟨post', rfl⟩ : ∃ post', post = J :: post' := by
      cases post with
      | nil => cases hJ
      | cons K post' => exact ⟨post', by rw [Option.some_inj.1 hJ]⟩
    have hnext : F.At J.id b (l ++ [I]) J post' :=
      ⟨hat.body_eq.trans (List.append_cons ..), rfl,
        (hat.point hF.wellFormed).not_phi J (by simp)⟩
    refine ⟨b, _, J, post', hnext, (hat.available hF.wellFormed hx).mono fun u hu => ?_⟩
    refine hu.imp_left fun hu => ?_
    rw [List.map_append]
    exact List.mem_append_left _ hu
  · cases hw

theorem emitPrefetchAhead_grows {S : PrefetchSite} (hv : S.Load = v) {Flag : Operand}
    (hFlag : Flag ∈ xs) (Asm : String) :
    Weaves B (W.emitPrefetchAhead S Flag Asm) F fun _ _ => True := by
  subst hv
  refine (getPointerOperand_grows hF hs).bind fun P F hF _ hP => ?_
  obtain ⟨rfl, hP⟩ := hP
  have hs := hs.cons hP
  refine (create_grows hF hs rfl _ (by simp)).bind fun Ahead F hF _ hs => ?_
  refine (split_grows hF hs (by simp [hFlag])).bind fun t F hF _ ht => ?_
  refine (createAsm_grows hF ht _ _ (by simp)).bind fun _ F hF _ _ => ?_
  exact .pure hF trivial

theorem emitDiscardAfter_grows {S : PrefetchSite} (hv : S.Load = v) {Flag : Operand}
    (hFlag : Flag ∈ xs) : Weaves B (W.emitDiscardAfter S Flag) F fun _ _ => True := by
  subst hv
  refine (getNextNode_grows hF hs).bind fun o F hF _ ho => ?_
  obtain ⟨rfl, ho⟩ := ho
  cases o with
  | none => exact .pure hF trivial
  | some After =>
      have hafter := ho After rfl
      refine (getPointerOperand_grows hF hs).bind fun P F hF _ hP => ?_
      obtain ⟨rfl, hP⟩ := hP
      have hs : F.Scope After (P :: xs) :=
        ⟨(hafter P hP).spot, List.forall_mem_cons.2 ⟨hafter P hP, fun x hx => hafter x (hs.2 x hx)⟩⟩
      refine (split_grows hF hs (by simp [hFlag])).bind fun t F hF _ ht => ?_
      refine (create_grows hF ht rfl _ (by simp)).bind fun Pi F hF _ ht => ?_
      refine (create_grows hF ht rfl _ (by simp)).bind fun Aligned F hF _ ht => ?_
      refine (create_grows hF ht rfl _ (by simp)).bind fun AP F hF _ ht => ?_
      refine (createAsm_grows hF ht _ _ (by simp)).bind fun _ F hF _ _ => ?_
      exact .pure hF trivial

theorem emitPrefetch_grows {S : PrefetchSite} (hv : S.Load = v) {Flags : FlagValues}
    (hUrgent : Flags.Urgent ∈ xs) (hPolite : Flags.Polite ∈ xs) :
    Weaves B (W.emitPrefetch S Flags) F fun _ _ => True := by
  unfold emitPrefetch
  split_ifs
  · refine (emitPrefetchAhead_grows hF hs hv hUrgent _).bind fun _ F hF hgrowth _ => ?_
    exact emitDiscardAfter_grows hF (hgrowth.scope hs) hv hPolite
  · subst hv
    refine (create_grows hF hs rfl _ (by simp [hUrgent, hPolite])).bind fun Any F hF _ hs => ?_
    exact emitPrefetchAhead_grows hF hs rfl (by simp) _

theorem emitAsyncPrefetch_grows {A : AsyncSite} (hv : A.Copy = v) {Urgent : Operand}
    (hUrgent : Urgent ∈ xs) (hGmem : A.Gmem ∈ xs) :
    Weaves B (W.emitAsyncPrefetch A Urgent) F fun _ _ => True := by
  subst hv
  unfold emitAsyncPrefetch
  split_ifs
  · exact .pure hF trivial
  · refine (split_grows hF hs (by simp [hUrgent])).bind fun t F hF _ ht => ?_
    rw [pure_bind]
    refine (createAsm_grows hF ht _ _ (by simp [hGmem])).bind fun _ F hF _ _ => ?_
    exact .pure hF trivial
  · refine (split_grows hF hs (by simp [hUrgent])).bind fun t F hF _ ht => ?_
    refine (create_grows hF ht rfl _ (by simp [hGmem])).bind fun G F hF _ ht => ?_
    refine (createAsm_grows hF ht _ _ (by simp)).bind fun _ F hF _ _ => ?_
    exact .pure hF trivial

/-! ## At a return -/

theorem createNot_grows (hx : x ∈ xs) :
    Weaves B (W.createNot v x) F fun y F' => F'.Scope v (y :: xs) := by
  unfold createNot
  split_ifs
  · exact .pure hF (hs.cons (hs.1.available W.closed_getTrue))
  · exact create_grows hF hs rfl _ (by simp [hx])

theorem emitTimerRows_grows (hG : G ∈ xs) : Weaves B (W.emitTimerRows v G) F fun p F' =>
    F'.Scope p.1 (p.2 :: xs) := by
  unfold emitTimerRows
  split_ifs
  · refine (create_grows hF hs rfl _ (by simp [hG])).bind fun Chan F hF _ hs => ?_
    refine (create_grows hF hs rfl _ (by simp)).bind fun ChanOk F hF _ hs => ?_
    refine (split_grows hF hs (by simp)).bind fun t F hF _ ht => ?_
    refine (create_grows hF ht rfl _ (by simp)).bind fun Base F hF _ ht => ?_
    exact .pure hF (ht.mono (by simp +contextual [List.subset_def]))
  · exact .pure hF (hs.cons (hs.2 G hG))

theorem emitTimerAt_grows {T0 TimerOff : Operand} (hT0 : T0 ∈ xs) (hTimerOff : TimerOff ∈ xs)
    (hTask : Task ∈ xs) : Weaves B (W.emitTimerAt T0 TimerOff Task v) F fun _ _ => True := by
  refine (createAsm_grows hF hs _ _ (by simp)).bind fun T1 F hF _ hs => ?_
  refine (create_grows hF hs rfl _ (by simp [hT0])).bind fun Dur F hF _ hs => ?_
  refine (threadIsZero_grows hF hs).bind fun Tz F hF hgrowth hTz => ?_
  have hs := (hgrowth.scope hs).cons hTz
  refine (rtBuffer_grows hF hs _ _).bind fun p F hF _ hs => ?_
  refine (create_grows hF hs rfl _ (by simp [hTask])).bind fun InB F hF _ hs => ?_
  refine (createNot_grows hF hs (by simp [hTimerOff])).bind fun On F hF _ hs => ?_
  refine (create_grows hF hs rfl _ (by simp)).bind fun TzArmed F hF _ hs => ?_
  refine (create_grows hF hs rfl _ (by simp)).bind fun Within F hF _ hs => ?_
  refine (create_grows hF hs rfl _ (by simp)).bind fun Ok F hF _ hs => ?_
  refine (split_grows hF hs (by simp)).bind fun t F hF _ ht => ?_
  refine (emitTimerRows_grows hF ht (by simp)).bind fun q F hF _ ht => ?_
  refine (create_grows hF ht rfl _ (by simp [hTask])).bind fun Task64 F hF _ ht => ?_
  refine (create_grows hF ht rfl _ (by simp)).bind fun GEP F hF _ ht => ?_
  refine (create_grows hF ht rfl _ (by simp)).bind fun _ F hF _ _ => ?_
  exact .pure hF trivial

end

end Weaver

/-! ## Behind the insertion point -/

section

variable {F F' : Func} {v w : ℕ} {xs : List Operand}

/-- Instruction `w` is `v` or comes behind it. -/
def Func.Below (F : Func) (v w : ℕ) : Prop := F.Spot w ∧ (w = v ∨ F.AvailableAt w (.inst v))

theorem Growth.below (h : Growth F F') (hw : F.Below v w) : F'.Below v w :=
  ⟨h.spot hw.1, hw.2.imp_right (h.available w _)⟩

theorem Func.Scope.below (hF : F.WellFormed) (hs : F.Scope v xs) (hw : F.Below v w) : F.Scope w xs := by
  obtain ⟨hspot, rfl | hv⟩ := hw
  · exact hs
  · exact ⟨hspot, fun x hx => (hs.2 x hx).trans hF hv⟩

end

namespace Weaver

variable {W : Weaver} {B : Origin} {F : Func} {IP w : ℕ} {Task : Operand} {xs : List Operand}

/-- The builder stands in the entry, behind PHIs and allocas only. -/
theorem at_insertionPoint (hF : F.WellFormed) (hIP : W.insertionPoint F = some IP) : ∃ l I post,
    F.At IP F.cfg.entry l I post ∧ ∀ J ∈ l, J.op = .phi ∨ J.op = .other := by
  obtain ⟨I, hI, rfl⟩ := Option.map_eq_some_iff.1 hIP
  obtain ⟨post, hpost⟩ := List.head?_eq_some_iff.1 hI
  have hpoint := point_phis hF hF.entry_mem
  have hsplit := List.takeWhile_append_dropWhile (p := fun I : Instr => I.op == .other && W.isAlloca I)
    (l := (F.body F.cfg.entry).dropWhile fun I => I.op == .phi)
  rw [hpost] at hsplit
  have hbody := hpoint.body_eq
  rw [← hsplit, ← List.append_assoc] at hbody
  refine ⟨_, I, post, ⟨hbody, rfl, hpoint.not_phi I ?_⟩, fun J hJ => ?_⟩
  · exact hsplit ▸ List.mem_append_right _ (List.mem_cons_self ..)
  · rcases List.mem_append.1 hJ with hJ | hJ
    · left
      simpa using List.mem_takeWhile_imp hJ
    · right
      have := List.mem_takeWhile_imp hJ
      simp only [Bool.and_eq_true, beq_iff_eq] at this
      exact this.1

/-- What is neither a PHI nor like an alloca comes behind the builder. -/
theorem below_insertionPoint (hF : F.WellFormed) (hIP : W.insertionPoint F = some IP) {b : ℕ}
    {K : Instr} (hK : K ∈ F.body b) (hphi : K.op ≠ .phi) (hother : K.op ≠ .other) :
    F.Below IP K.id := by
  obtain ⟨l, I, post, hat, hl⟩ := at_insertionPoint hF hIP
  obtain ⟨q, r, hqr⟩ := List.append_of_mem hK
  have hspot : F.At K.id b q K r := ⟨hqr, rfl, hphi⟩
  refine ⟨⟨b, q, K, r, hspot⟩, ?_⟩
  by_cases hb : b = F.cfg.entry
  · subst hb
    have hmem := hK
    rw [hat.body_eq, List.mem_append, List.mem_cons] at hmem
    rcases hmem with hmem | rfl | hmem
    · exact absurd (hl K hmem) (by simp [hphi, hother])
    · exact Or.inl hat.id_eq
    · right
      obtain ⟨s, t, rfl⟩ := List.append_of_mem hmem
      have hat' : F.At K.id F.cfg.entry (l ++ I :: s) K t :=
        ⟨hat.body_eq.trans (by simp), rfl, hphi⟩
      refine ⟨_, _, K, t, hat', Or.inl ?_⟩
      rw [← hat.id_eq]
      exact List.mem_map_of_mem (by simp)
  · right
    refine ⟨b, q, K, r, hspot, Or.inr ⟨F.cfg.entry, ?_, Cfg.strictDom_entry hb⟩⟩
    rw [ids, hat.body_eq, List.map_append, List.map_cons, hat.id_eq]
    exact List.mem_append_right _ (List.mem_cons_self ..)

/-- An old instruction of an instrumented function is one of the function, where its piece is at home. -/
theorem old_of_instruments {F₀ F : Func} {n b : ℕ} {S : Pieces} (hS : Instruments F₀ F n S)
    (hb : b ∈ F.blocks) {I : Instr} (hI : I ∈ F.body b) (hid : I.id < n) :
    ∃ I₀ ∈ F₀.body (S.home b), I₀.id = I.id ∧ I₀.op = I.op := by
  have hold : ∀ {l old : List Instr}, oldOnes n l = old.map (Instr.rename S.last) → I ∈ l →
      old ⊆ S.rest b → ∃ I₀ ∈ F₀.body (S.home b), I₀.id = I.id ∧ I₀.op = I.op := by
    intro l old h hmem hsub
    have hmem' : I ∈ oldOnes n l := List.mem_filter.2 ⟨hmem, by simpa using hid⟩
    rw [h] at hmem'
    obtain ⟨I₀, hI₀, rfl⟩ := List.mem_map.1 hmem'
    exact ⟨I₀, (hS.suffix b hb).subset (hsub hI₀), rfl, rfl⟩
  cases hS.piece b hb with
  | last q T hq hT hqT hlt hrest hsucc hback => exact hold hrest hI (List.Subset.refl _)
  | inner q old T hq hT hqT hnew hrest hsucc hways =>
      obtain ⟨c, hc⟩ : ∃ c, c ∈ F.cfg.succ b := by
        refine List.exists_mem_of_length_pos ?_
        rcases hways with h | h <;> omega
      rw [hq, List.mem_append, List.mem_singleton] at hI
      refine hold hrest (hI.resolve_right fun h => ?_)
        ((hsucc c hc).2.2.2.2 ▸ List.subset_append_left ..)
      rw [h] at hid
      omega

theorem old_of_lt (hF : Edited B F) {b : ℕ} {I : Instr} (hI : I ∈ F.body b) (hid : I.id < B.next) :
    ∃ c, ∃ I₀ ∈ B.func.body c, I₀.id = I.id ∧ I₀.op = I.op := by
  obtain ⟨S, R, hS, -, -⟩ := hF.instruments
  have hview : I.asArgument B.next B.tasks B.arg ∈ (B.view F).body b := List.mem_map_of_mem hI
  obtain ⟨I₀, hI₀, hid₀, hop₀⟩ := old_of_instruments hS (hF.wellFormed.body_mem b I hI) hview
    (by rwa [Instr.asArgument_id])
  rw [Instr.asArgument_id] at hid₀
  rw [Instr.asArgument_op] at hop₀
  exact ⟨_, I₀, hI₀, hid₀, hop₀⟩

/-- The returns of an instrumented function are those of the function. -/
theorem old_of_mem_returns (hF : Edited B F) (hw : w ∈ W.returns F) :
    ∃ b, ∃ T ∈ B.func.body b, T.id = w ∧ T.op = .terminator := by
  obtain ⟨c, hc, hw⟩ := List.mem_filterMap.1 hw
  obtain ⟨T, hT, rfl⟩ := Option.map_eq_some_iff.1 hw
  obtain ⟨hlast, hcond⟩ := Option.filter_eq_some_iff.1 hT
  simp only [Bool.and_eq_true, beq_iff_eq, List.isEmpty_iff] at hcond
  have hTc : T ∈ F.body c := List.mem_of_getLast? hlast
  obtain ⟨S, R, hS, -, -⟩ := hF.instruments
  have hret : (B.view F).cfg.succ c = [] := hcond.1.2
  cases hS.piece c hc with
  | last q T' hq hT' hqT hid hrest hsucc hback =>
      have hlast' : ((B.view F).body c).getLast? = some (T.asArgument B.next B.tasks B.arg) := by
        show ((F.body c).map _).getLast? = _
        rw [List.getLast?_map, hlast, Option.map_some]
      rw [hq, List.getLast?_concat, Option.some_inj] at hlast'
      rw [hlast', Instr.asArgument_id] at hid
      obtain ⟨b, T₀, hT₀, hid₀, hop₀⟩ := old_of_lt hF hTc hid
      exact ⟨b, T₀, hT₀, hid₀, hop₀.trans hcond.1.1⟩
  | inner q old T' hq hT' hqT hid hrest hsucc hways =>
      rw [hret] at hways
      simp at hways

/-- So they are behind the builder. -/
theorem below_of_mem_returns {F₀ : Func} (hF₀ : F₀.WellFormed)
    (hIP : W.insertionPoint F₀ = some IP) (hF : Edited (.of F₀) F) (hgrowth : Growth F₀ F)
    (hw : w ∈ W.returns F) : F.Below IP w := by
  obtain ⟨b, T, hT, rfl, hop⟩ := old_of_mem_returns hF hw
  exact hgrowth.below (below_insertionPoint hF₀ hIP hT (by simp [hop]) (by simp [hop]))

/-! ## The whole function -/

section

variable (hF : Edited B F) (hs : F.Scope IP xs)

include hF hs

omit hs in
theorem emitTimer_grows {T0 TimerOff : Operand}
    (hback : ∀ w ∈ W.returns F, F.Scope w [T0, TimerOff, Task]) :
    Weaves B (W.emitTimer T0 TimerOff Task) F fun _ _ => True := by
  refine Grows.bind (Q := fun G F' => G = F ∧ F' = F) ⟨hF, Std.Refl.refl F, rfl, rfl⟩
    fun G F' hF' _ hG => ?_
  obtain ⟨rfl, rfl⟩ := hG
  refine .forM hF' fun RI hRI F hF hgrowth => ?_
  exact emitTimerAt_grows hF (hgrowth.scope (hback RI hRI)) (by simp) (by simp) (by simp)

theorem emitPDL_grows (hback : ∀ G, Edited B G → Growth F G → ∀ w ∈ W.returns G, G.Below IP w) :
    Weaves B (W.emitPDL IP) F fun _ _ => True := by
  refine (createAsm_grows hF hs _ _ (by simp)).bind fun _ F₁ hF₁ hg hs => ?_
  refine Grows.bind (Q := fun G F' => G = F₁ ∧ F' = F₁) ⟨hF₁, Std.Refl.refl F₁, rfl, rfl⟩
    fun G F' hF' _ hG => ?_
  obtain ⟨rfl, rfl⟩ := hG
  refine .forM hF' fun RI hRI F hF hgrowth => ?_
  have hRI := hs.below hF'.wellFormed (hback _ hF' hg RI hRI)
  refine (createAsm_grows hF (hgrowth.scope hRI) _ _ (by simp)).bind fun _ F hF _ _ => ?_
  exact .pure hF trivial

theorem emitClock_grows : Weaves B (W.emitClock IP) F fun o F' => ∀ p ∈ o,
    (F'.AvailableAt IP p.1 ∧ p.1.All (B.next ≤ ·)) ∧ F'.AvailableAt IP p.2 ∧
      p.2.All (B.next ≤ ·) := by
  unfold emitClock
  split_ifs
  · have hnew : Ends (readClock64 IP) F fun T0 _ => T0.All (B.next ≤ ·) := hF.next_le
    refine ((createAsm_grows hF hs _ _ (by simp)).and hnew).bind fun T0 F hF _ h => ?_
    obtain ⟨hs, hT0⟩ := h
    refine (readTimerOff_grows hF hs).bind fun TimerOff F hF hgrowth hx => ?_
    refine .pure hF fun p hp => ?_
    obtain rfl := Option.some_inj.1 hp
    exact ⟨⟨(hgrowth.scope hs).2 _ (by simp), hT0⟩, hx⟩
  · exact .pure hF (by simp)

theorem emitTask_grows (hremaps : W.remaps = false) (OldPid : List ℕ) :
    Weaves B (W.emitTask OldPid IP) F fun p F' => F'.AvailableAt IP p.1 ∧ p.2 = IP := by
  unfold emitTask
  simp only [hremaps, Bool.false_eq_true, if_false]
  split_ifs
  · exact .pure hF ⟨hs.1.available rfl, rfl⟩
  · refine (readSReg_grows hF hs _ _).bind fun Pid F hF _ hs => ?_
    exact .pure hF ⟨hs.2 _ (by simp), rfl⟩

theorem emitFlags_grows (hTask : Task ∈ xs) (Sites : List PrefetchSite) (AsyncSites : List AsyncSite) :
    Weaves B (W.emitFlags Sites AsyncSites IP Task) F fun o F' =>
      ∀ p ∈ o, F'.AvailableAt IP p.Urgent ∧ F'.AvailableAt IP p.Polite := by
  unfold emitFlags
  split_ifs
  · refine (emitPolicyFlags_grows hF hs hTask).bind fun p F hF _ hp => ?_
    refine .pure hF fun q hq => ?_
    obtain rfl := Option.some_inj.1 hq
    exact hp
  · exact .pure hF (by simp)

theorem emitHints_grows {Sites : List PrefetchSite} {AsyncSites : List AsyncSite}
    (hsites : ∀ S ∈ Sites, F.Below IP S.Load)
    (hcopies : ∀ A ∈ AsyncSites, F.Below IP A.Copy ∧ F.AvailableAt A.Copy A.Gmem)
    {Flags : Option FlagValues}
    (hFlags : ∀ p ∈ Flags, F.AvailableAt IP p.Urgent ∧ F.AvailableAt IP p.Polite) :
    Weaves B (W.emitHints Sites AsyncSites Flags) F fun _ _ => True := by
  cases Flags with
  | none => exact .pure hF trivial
  | some p =>
      have hs := (hs.cons (hFlags p rfl).2).cons (hFlags p rfl).1
      refine Grows.bind (Grows.forM hF fun S hS G hG hgrowth => ?_) fun _ F₁ hF₁ hg _ => ?_
      · exact emitPrefetch_grows hG (hgrowth.scope (hs.below hF.wellFormed (hsites S hS))) rfl
          (by simp) (by simp)
      · refine .forM hF₁ fun A hA G hG hgrowth => ?_
        obtain ⟨hbelow, hGmem⟩ := hcopies A hA
        have hA := (hs.below hF.wellFormed hbelow).cons hGmem
        exact emitAsyncPrefetch_grows hG (hgrowth.scope (hg.scope hA)) rfl (by simp) (by simp)

omit hs in
theorem emitTimers_grows {Clock : Option (Operand × Operand)}
    (hback : ∀ p ∈ Clock, ∀ w ∈ W.returns F, F.Scope w [p.1, p.2, Task]) :
    Weaves B (W.emitTimers Clock Task) F fun _ _ => True := by
  cases Clock with
  | none => exact .pure hF trivial
  | some p => exact emitTimer_grows hF (hback p rfl)

theorem emitLaunchPoints_grows
    (hback : ∀ G, Edited B G → Growth F G → ∀ w ∈ W.returns G, G.Below IP w) :
    Weaves B (W.emitLaunchPoints IP) F fun _ _ => True := by
  unfold emitLaunchPoints
  split_ifs
  · exact emitPDL_grows hF hs hback
  · exact .pure hF trivial

end

/-- What is emitted behind the task. -/
abbrev emitRest (W : Weaver) (Sites : List PrefetchSite) (AsyncSites : List AsyncSite)
    (Clock : Option (Operand × Operand)) (IP : ℕ) (Task : Operand) : Emit Bool := do
  let Flags ← W.emitFlags Sites AsyncSites IP Task
  W.emitShed Sites IP Task
  W.emitHints Sites AsyncSites Flags
  W.emitTimers Clock Task
  W.emitLaunchPoints IP
  return true

theorem emitRest_grows {Sites : List PrefetchSite} {AsyncSites : List AsyncSite}
    {Clock : Option (Operand × Operand)} (hF : Edited B F) (hs : F.Scope IP [Task])
    (hsheds : W.sheds Sites = false) (hsites : ∀ S ∈ Sites, F.Below IP S.Load)
    (hcopies : ∀ A ∈ AsyncSites, F.Below IP A.Copy ∧ F.AvailableAt A.Copy A.Gmem)
    (hback : ∀ G, Edited B G → Growth F G → ∀ w ∈ W.returns G, G.Below IP w ∧
      ∀ p ∈ Clock, G.AvailableAt w p.1 ∧ G.AvailableAt w p.2) :
    Weaves B (W.emitRest Sites AsyncSites Clock IP Task) F fun _ _ => True := by
  refine (emitFlags_grows hF hs (by simp) _ _).bind fun Flags F₁ hF₁ hg₁ hFlags => ?_
  simp only [emitShed, hsheds, Bool.false_eq_true, if_false, pure_bind]
  refine (emitHints_grows hF₁ (hg₁.scope hs) (fun S hS => hg₁.below (hsites S hS)) (fun A hA => ?_)
    hFlags).bind fun _ F₂ hF₂ hg₂ _ => ?_
  · exact ⟨hg₁.below (hcopies A hA).1, hg₁.available _ _ (hcopies A hA).2⟩
  have hg := hg₁.trans hg₂
  refine (emitTimers_grows hF₂ fun p hp w hw => ?_).bind fun _ F₃ hF₃ hg₃ _ => ?_
  · obtain ⟨hbelow, hClock⟩ := hback F₂ hF₂ hg w hw
    have hscope := (((hg.scope hs).below hF₂.wellFormed hbelow).cons (hClock p hp).2).cons
      (hClock p hp).1
    exact hscope
  refine (emitLaunchPoints_grows hF₃ ((hg.trans hg₃).scope hs) fun G hG hgrowth w hw =>
    (hback G hG ((hg.trans hg₃).trans hgrowth) w hw).1).bind fun _ F₄ hF₄ _ _ => ?_
  exact .pure hF₄ trivial

/-- A site is a load. -/
theorem exists_of_mem_sites {S : PrefetchSite} (hS : S ∈ W.sites F) :
    ∃ b, ∃ I ∈ F.body b, I.id = S.Load ∧ I.op = .load := by
  unfold sites at hS
  split_ifs at hS
  · obtain ⟨L, K, -, -, I, hI, hid, hop, -⟩ :=
      (SiteAnalyses.mem_findPrefetchSites.1 (List.mem_map_of_mem hS)).isStream
    obtain ⟨b, -, hI⟩ := List.mem_flatMap.1 hI
    exact ⟨b, I, hI, hid, hop⟩
  · cases hS

/-- The loads of the sites are behind the builder. -/
theorem below_of_mem_sites (hF : F.WellFormed) (hIP : W.insertionPoint F = some IP)
    {S : PrefetchSite} (hS : S ∈ W.sites F) : F.Below IP S.Load := by
  obtain ⟨b, I, hI, hid, hop⟩ := exists_of_mem_sites hS
  rw [← hid]
  exact below_insertionPoint hF hIP hI (by simp [hop]) (by simp [hop])

/-- A copy is a call of inline assembly, with its source among the operands. -/
theorem exists_of_mem_copies (hF : F.WellFormed) {A : AsyncSite} (hA : A ∈ W.copies F) :
    ∃ b, ∃ I ∈ F.body b, I.id = A.Copy ∧ I.op = .call none none ∧
      A.Gmem = (I.args[W.GmemArg I]?).getD (.otherConst 0) := by
  unfold copies at hA
  split_ifs at hA
  · obtain ⟨v, hv, rfl⟩ := List.mem_map.1 hA
    obtain ⟨I, hI, rfl⟩ := List.mem_map.1 (List.mem_of_mem_take hv)
    obtain ⟨hI, hop⟩ := List.mem_filter.1 hI
    simp only [Bool.and_eq_true, beq_iff_eq] at hop
    obtain ⟨b, -, hI⟩ := List.mem_flatMap.1 hI
    refine ⟨b, I, hI, rfl, hop.1, ?_⟩
    show ((F.instr I.id).bind fun I => I.args[W.GmemArg I]?).getD (.otherConst 0) = _
    rw [hF.instr_eq hI, Option.bind_some]
  · cases hA

/-- So they are behind the builder, and can use their sources. -/
theorem below_of_mem_copies (hF : F.WellFormed) (hvalid : F.Valid)
    (hIP : W.insertionPoint F = some IP) {A : AsyncSite} (hA : A ∈ W.copies F) :
    F.Below IP A.Copy ∧ F.AvailableAt A.Copy A.Gmem := by
  obtain ⟨b, I, hI, hid, hop, hGmem⟩ := exists_of_mem_copies hF hA
  rw [← hid, hGmem]
  have hbelow := below_insertionPoint hF hIP hI (by simp [hop]) (by simp [hop])
  refine ⟨hbelow, ?_⟩
  obtain ⟨c, l, J, post, hat⟩ := hbelow.1
  have hJ : J = I := hF.eq_of_id (hat.body_eq ▸ List.mem_append_right l (List.mem_cons_self ..)) hI
    hat.id_eq
  subst hJ
  cases hx : J.args[W.GmemArg J]? with
  | none => exact hbelow.1.available rfl
  | some x => exact hat.available_of_mem hvalid (List.mem_of_getElem? hx)

/-- **Without the task indirection and the shed masks, what is woven is the function, instrumented.** -/
theorem edited_run (hF : F.WellFormed) (hvalid : F.Valid) (hphis : F.PhisName)
    (hremaps : W.remaps = false) (hsheds : W.sheds (W.sites F) = false) :
    Edited (.of F) (W.run.run F).2 := by
  have hedited := Edited.refl hF hvalid hphis
  suffices Weaves (.of F) W.run F fun _ _ => True from this.1
  refine Grows.bind (Q := fun G F' => G = F ∧ F' = F) ⟨hedited, Std.Refl.refl F, rfl, rfl⟩
    fun G F' hF' _ hG => ?_
  obtain ⟨rfl, rfl⟩ := hG
  dsimp only
  cases hIP : W.insertionPoint F' with
  | none => exact .pure hedited trivial
  | some IP =>
      obtain ⟨l, I, post, hat, -⟩ := at_insertionPoint hF hIP
      have hs : F'.Scope IP [] := ⟨⟨_, l, I, post, hat⟩, by simp⟩
      have hback : ∀ G, Edited (.of F') G → Growth F' G → ∀ w ∈ W.returns G, G.Below IP w :=
        fun G hG hgrowth w hw => below_of_mem_returns hF hIP hG hgrowth hw
      refine (emitClock_grows hedited hs).bind fun Clock F₁ hF₁ hg₁ hClock => ?_
      have hs := hg₁.scope hs
      refine (emitTask_grows hF₁ hs hremaps _).bind fun q F₂ hF₂ hg₂ hTask => ?_
      obtain ⟨Task, IP'⟩ := q
      obtain ⟨hTask, rfl⟩ := hTask
      have hs := (hg₂.scope hs).cons hTask
      have hg := hg₁.trans hg₂
      refine emitRest_grows hF₂ (hs.mono (by simp)) hsheds
        (fun S hS => hg.below (below_of_mem_sites hF hIP hS)) (fun A hA => ?_)
        fun G hG hgrowth w hw => ?_
      · obtain ⟨hbelow, hGmem⟩ := below_of_mem_copies hF hvalid hIP hA
        exact ⟨hg.below hbelow, hg.available _ _ hGmem⟩
      · have hbelow := hback G hG (hg.trans hgrowth) w hw
        refine ⟨hbelow, fun p hp => ?_⟩
        have hlater := hg₂.trans hgrowth
        have hClock' : G.Scope IP' [p.1, p.2] := ⟨(hgrowth.scope hs).1, by
          simp [hlater.available _ _ (hClock p hp).1.1, hlater.available _ _ (hClock p hp).2.1]⟩
        have hw' := hClock'.below hG.wellFormed hbelow
        exact ⟨hw'.2 _ (by simp), hw'.2 _ (by simp)⟩

end Weaver

end SchedPass
