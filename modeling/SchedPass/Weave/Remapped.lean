import SchedPass.Weave.Emitted
import SchedPass.Weave.HandOver
import SchedPass.WorkQueue.CloneSites

set_option autoImplicit false

/-! # The weaving with the task indirection (`Weaver::emitRemap`, `Weaver::run`)

The remap leaves an instrumented function whose task can be used wherever the block index was read;
handing the reads' uses over and going on leaves an instrumented version of the function whose reads
were replaced by an argument, in which the task is computed once (`Weaver.remapped_run`). -/

namespace SchedPass

open Func

namespace Weaver

variable {W : Weaver} {B : Origin} {F F₀ : Func} {v IP : ℕ} {G Pid NTiles : Operand}
  {xs : List Operand}

/-! ## A block that stays -/

/-- Instruction `c` stands in block `b`, and instruction `t` does not. -/
structure Kept (b c t : ℕ) (F : Func) : Prop where
  mem : b ∈ F.blocks
  stands : c ∈ F.ids b
  out : t ∉ F.ids b
  lt : t < F.next

section

variable {b c t a k : ℕ}

theorem Kept.insertAt (h : Kept b c t F) {I : Instr} (hI : I.id = F.next) :
    Kept b c t (F.insertAt a k [I]) where
  mem := h.mem
  stands := extends_insertAt.ids_subset b h.stands
  out := by
    intro ht
    obtain ⟨K, hK, hid⟩ := List.mem_map.1 ht
    rcases mem_insertAt hK with hK | ⟨-, hK⟩
    · exact h.out (hid ▸ List.mem_map_of_mem hK)
    · rw [List.mem_singleton.1 hK, hI] at hid
      exact absurd h.lt (by omega)
  lt := h.lt.trans_le (Nat.le_add_right ..)

theorem create_kept (h : Kept b c t F) (op : Opcode) (ty : Ty) (args : List Operand) :
    Ends (create v op ty args) F fun _ F' => Kept b c t F' := by
  show Kept b c t (F.insertBefore v _)
  unfold Func.insertBefore
  split
  · exact h
  · exact h.insertAt rfl

theorem phi_kept (h : Kept b c t F) (ty : Ty) (incoming : List (ℕ × Operand)) :
    Ends (CreatePHI a ty incoming) F fun _ F' => Kept b c t F' :=
  h.insertAt rfl

/-- A block is split at an instruction that it contains. -/
theorem split_kept (h : Kept b c t F) (Cond : Operand) :
    Ends (SplitBlockAndInsertIfThen Cond t) F fun _ F' => Kept b c t F' := by
  show Kept b c t (F.splitBefore t Cond)
  unfold Func.splitBefore
  split
  · exact h
  · next d hd =>
      have hdb : b ≠ d := by
        rintro rfl
        have hfind : F.blocks.find? (fun a => decide (t ∈ F.ids a)) = some b := hd
        exact h.out (by simpa using List.find?_some hfind)
      have hids : (F.splitIf d ((F.ids d).idxOf t) Cond []).ids b = F.ids b := by
        rw [Func.ids, splitIf_body_of_ne hdb (fun h' => thenBlock_not_mem (h' ▸ h.mem)) fun h' =>
          tailBlock_not_mem (h' ▸ h.mem), map_id_rename]
        rfl
      exact ⟨mem_splitIf_blocks.2 (Or.inl h.mem), hids ▸ h.stands, hids ▸ h.out,
        h.lt.trans_le (Nat.le_add_right F.next 2)⟩

theorem rtBuffer_kept (h : Kept b c t F) (s : RtSlot) (Name : String) :
    Ends (W.rtBuffer s Name v) F fun _ F' => Kept b c t F' := by
  unfold rtBuffer
  split_ifs
  · refine (create_kept h ..).bind fun P F h => ?_
    refine (create_kept h ..).bind fun NonNull F h => ?_
    refine (create_kept h ..).bind fun G F h => ?_
    exact h
  · exact h
  · refine (create_kept h ..).bind fun AddrV F h => ?_
    refine (create_kept h ..).bind fun P F h => ?_
    exact h

theorem emitMapped_kept (h : Kept b c t F) :
    Ends (W.emitMapped v G Pid) F fun _ F' => Kept b c t F' := by
  unfold emitMapped
  split_ifs
  · refine (create_kept h ..).bind fun Ptr F h => ?_
    refine (create_kept h ..).bind fun ChanOk F h => ?_
    refine (create_kept h ..).bind fun GInt F h => ?_
    refine (create_kept h ..).bind fun SafePtr F h => ?_
    refine (create_kept h ..).bind fun Base F h => ?_
    refine (create_kept h ..).bind fun GEP F h => ?_
    refine (create_kept h ..).bind fun Mapped F h => ?_
    exact create_kept h ..
  · refine (create_kept h ..).bind fun GEP F h => ?_
    exact create_kept h ..

theorem emitSizeOK_kept (h : Kept b c t F) :
    Ends (W.emitSizeOK t NTiles) F fun _ F' => Kept b c t F' := by
  unfold emitSizeOK
  split_ifs
  · exact h
  · refine (rtBuffer_kept h ..).bind fun p F h => ?_
    refine Ends.bind (Q := fun _ F' => Kept b c t F') h fun SzHead F h => ?_
    refine (split_kept h _).bind fun SzTerm F h => ?_
    refine (create_kept h ..).bind fun OszP F h => ?_
    refine (create_kept h ..).bind fun Osz F h => ?_
    refine (create_kept h ..).bind fun Unchecked F h => ?_
    refine (create_kept h ..).bind fun Match F h => ?_
    refine (create_kept h ..).bind fun OkThen F h => ?_
    refine Ends.bind (Q := fun _ F' => Kept b c t F') h fun SzTail F h => ?_
    refine Ends.bind (Q := fun _ F' => Kept b c t F') h fun Then F h => ?_
    exact phi_kept h ..

end

/-! ## The remap -/

section

variable (hF : Edited B F) (hs : F.Scope v xs)

include hF hs

theorem emitMapped_grows (hG : G ∈ xs) (hPid : Pid ∈ xs) :
    Weaves B (W.emitMapped v G Pid) F fun x F' => F'.AvailableAt v x := by
  unfold emitMapped
  split_ifs
  · refine (create_grows hF hs rfl _ (by simp [hG])).bind fun Ptr F hF _ hs => ?_
    refine (create_grows hF hs rfl _ (by simp)).bind fun ChanOk F hF _ hs => ?_
    refine (create_grows hF hs rfl _ (by simp [hG])).bind fun GInt F hF _ hs => ?_
    refine (create_grows hF hs rfl _ (by simp)).bind fun SafePtr F hF _ hs => ?_
    refine (create_grows hF hs rfl _ (by simp)).bind fun Base F hF _ hs => ?_
    refine (create_grows hF hs rfl _ (by simp [hPid])).bind fun GEP F hF _ hs => ?_
    refine (create_grows hF hs rfl _ (by simp)).bind fun Mapped F hF _ hs => ?_
    exact (create_grows hF hs rfl _ (by simp)).mono fun x F _ _ hs => hs.2 x (by simp)
  · refine (create_grows hF hs rfl _ (by simp [hG, hPid])).bind fun GEP F hF _ hs => ?_
    exact (create_grows hF hs rfl _ (by simp)).mono fun x F _ _ hs => hs.2 x (by simp)

theorem emitSizeOK_grows (hNTiles : NTiles ∈ xs) :
    Weaves B (W.emitSizeOK v NTiles) F fun x F' => F'.AvailableAt v x := by
  unfold emitSizeOK
  split_ifs
  · exact .pure hF (hs.1.available W.closed_getTrue)
  · refine (rtBuffer_grows hF hs _ _).bind fun p F hF _ hs => ?_
    refine (getParent_grows hF hs).bind fun SzHead F hF _ hHead => ?_
    obtain ⟨rfl, l, I, post, hat⟩ := hHead
    have hblock := hat.mem_blocks hF.wellFormed
    refine (split_grows hF hs (by simp)).bind fun t F hF hg₁ ht => ?_
    refine (create_grows hF ht rfl _ (by simp)).bind fun OszP F hF hg₂ ht => ?_
    refine (create_grows hF ht rfl _ (by simp)).bind fun Osz F hF hg₃ ht => ?_
    refine (create_grows hF ht rfl _ (by simp)).bind fun Unchecked F hF hg₄ ht => ?_
    refine (create_grows hF ht rfl _ (by simp [hNTiles])).bind fun Match F hF hg₅ ht => ?_
    refine (create_grows hF ht rfl _ (by simp)).bind fun OkThen F hF hg₆ ht => ?_
    have hg := hg₁.trans (hg₂.trans (hg₃.trans (hg₄.trans (hg₅.trans hg₆))))
    exact (join_grows hF (hg.scope hs) ht (hg.blocks_subset hblock) (ht.2 _ (by simp))
      W.closed_getTrue _).mono fun x F _ _ hx => hx.1

/-- The block that the builder stands in ends with the branch that the split makes. -/
theorem split_head {b : ℕ} {l post : List Instr} {I : Instr} (hat : F.At v b l I post) {Cond : Operand}
    (hCond : Cond ∈ xs ∨ Cond.closed = true) :
    Weaves B (SplitBlockAndInsertIfThen Cond v) F fun t F' => F'.Scope t xs ∧
      Kept b F.next t F' ∧ ∀ x ∈ xs, F'.AvailableAt F.next x := by
  obtain ⟨hedited, hgrowth, ht⟩ := split_grows hF hs hCond
  refine ⟨hedited, hgrowth, ht, ?_⟩
  have hb := hat.mem_blocks hF.wellFormed
  have hpoint := hat.point hF.wellFormed
  show Kept b F.next (F.next + 1) (F.splitBefore v Cond) ∧
    ∀ x ∈ xs, (F.splitBefore v Cond).AvailableAt F.next x
  rw [splitBefore_eq hF.wellFormed hat]
  have hbody : (F.splitIf b l.length Cond []).body b = _ := splitIf_body_self hb hpoint.body_eq
  have hids : (F.splitIf b l.length Cond []).ids b = l.map Instr.id ++ [F.next] := by
    rw [Func.ids, hbody, map_id_rename, List.map_append]
    rfl
  constructor
  · refine ⟨mem_splitIf_blocks.2 (Or.inl hb), by simp [hids], fun ht => ?_, Nat.lt_succ_self _⟩
    rw [hids, List.mem_append, List.mem_singleton] at ht
    rcases ht with ht | ht
    · obtain ⟨K, hK, hid⟩ := List.mem_map.1 ht
      have hlt := hF.wellFormed.fresh b K.id
        (List.mem_map_of_mem (hat.body_eq ▸ List.mem_append_left _ hK))
      omega
    · omega
  · intro x hx
    rw [List.map_append] at hbody
    refine ⟨b, _, _, [], ⟨hbody, rfl, fun hop => by cases hop⟩, ?_⟩
    rw [map_id_rename]
    exact (hat.available hF.wellFormed (hs.2 x hx)).mono fun u hu =>
      Available.splitIf hF.wellFormed hpoint hb hu

/-- What the remap leaves: the task is a new PHI of the builder's block. -/
theorem emitRemap_grows (hPid : Pid ∈ xs) : Weaves B (W.emitRemap v Pid) F fun x F' =>
    ∃ p t, x = .inst p ∧ B.next ≤ p ∧ F'.AvailableAt v x ∧ F'.InBlock v t ∧ F'.HasPHI t p := by
  refine (emitUse_grows hF hs _ _ hPid).bind fun p F hF hgrowth hp => ?_
  have hs := ((hgrowth.scope hs).cons hp.2).cons hp.1
  refine (getParent_grows hF hs).bind fun Head F hF _ hHead => ?_
  obtain ⟨rfl, l, I, post, hat⟩ := hHead
  have hInBlock : F.InBlock v Head := ⟨l, I, post, hat⟩
  refine (split_head hF hs hat (by simp)).bind fun t F₁ hF₁ hg₁ ht => ?_
  obtain ⟨ht, hkept, hhead⟩ := ht
  refine ((emitMapped_grows hF₁ ht (by simp) (by simp [hPid])).and
    (emitMapped_kept hkept)).bind fun Mapped F₂ hF₂ hg₂ h => ?_
  obtain ⟨hMapped, hkept⟩ := h
  have ht := (hg₂.scope ht).cons hMapped
  refine ((readSReg_grows hF₂ ht _ _).and (create_kept hkept ..)).bind fun NTiles F₃ hF₃ hg₃ h => ?_
  obtain ⟨ht, hkept⟩ := h
  refine ((emitSizeOK_grows hF₃ ht (by simp)).and
    (emitSizeOK_kept hkept)).bind fun SizeOK F₄ hF₄ hg₄ h => ?_
  obtain ⟨hSizeOK, hkept⟩ := h
  have ht := (hg₄.scope ht).cons hSizeOK
  refine ((create_grows hF₄ ht rfl _ (by simp)).and (create_kept hkept ..)).bind
    fun InGrid F₅ hF₅ hg₅ h => ?_
  obtain ⟨ht, hkept⟩ := h
  refine ((create_grows hF₅ ht rfl _ (by simp)).and (create_kept hkept ..)).bind
    fun Ok F₆ hF₆ hg₆ h => ?_
  obtain ⟨ht, hkept⟩ := h
  refine ((create_grows hF₆ ht rfl _ (by simp [hPid])).and (create_kept hkept ..)).bind
    fun Safe F₇ hF₇ hg₇ h => ?_
  obtain ⟨ht, hkept⟩ := h
  have hg := hg₂.trans (hg₃.trans (hg₄.trans (hg₅.trans (hg₆.trans hg₇))))
  have hs := (hg₁.trans hg).scope hs
  refine (getParent_grows hF₇ hs).bind fun Tail F₈ hF₈ _ hTail => ?_
  obtain ⟨rfl, hTail⟩ := hTail
  refine (getParent_grows hF₈ ht).bind fun Then F₉ hF₉ _ hThen => ?_
  obtain ⟨rfl, hThen⟩ := hThen
  -- the branch that ends the head can use the block's index
  have hheadEnd : F₉.AvailableAtEnd Head Pid := by
    have hav := hg.available _ _ (hhead Pid (by simp [hPid]))
    obtain ⟨b, q, K, r, hatK⟩ := hav.spot
    have hb : b = Head := by
      refine hF₉.wellFormed.ids_block b Head F.next ?_ hkept.stands
      rw [Func.ids, hatK.body_eq, List.map_append, List.map_cons, hatK.id_eq]
      exact List.mem_append_right _ (List.mem_cons_self ..)
    subst hb
    exact hatK.availableAtEnd hF₉.wellFormed hav
  refine (phi_hasPHI hF₉ hs hTail _ ?_).mono fun x F' _ _ h => ?_
  · exact List.forall_mem_cons.2 ⟨hThen.availableAtEnd hF₉.wellFormed (ht.2 _ (by simp)),
      List.forall_mem_singleton.2 hheadEnd⟩
  · obtain ⟨p, rfl, hp, hav, hblock, hphi⟩ := h
    exact ⟨p, Tail, rfl, hp, hav, hblock, hphi⟩

end

/-! ## Handing the reads over -/

/-- The task stands in a PHI of the builder's block, and the reads' uses are handed to it. -/
structure TaskPHI (F₀ F : Func) (IP p t : ℕ) : Prop where
  edited : Edited (.of F₀) F
  growth : Growth F₀ F
  next_le : F₀.next ≤ p
  available : F.AvailableAt IP (.inst p)
  inBlock : F.InBlock IP t
  hasPHI : F.HasPHI t p

/-- The first instruction behind the PHIs of the block. -/
def firstInsertionPt (F : Func) (t IP : ℕ) : ℕ :=
  (((F.body t).find? fun I => I.op != .phi).map Instr.id).getD IP

theorem emitTask_remaps (hgrowth : Growth F₀ F) (hF : Edited (.of F₀) F) (hs : F.Scope IP [])
    (hremaps : W.remaps = true) (OldPid : List ℕ) :
    Ends (W.emitTask OldPid IP) F fun q F' => ∃ F₁ p t, TaskPHI F₀ F₁ IP p t ∧ Growth F F₁ ∧
      F' = F₁.handOver OldPid (.inst p) ∧ q = (.inst p, firstInsertionPt F' t IP) := by
  have hbody : W.IsBody = false := by
    unfold remaps at hremaps
    simpa using (Bool.and_eq_true_iff.1 (Bool.and_eq_true_iff.1 hremaps).1).1
  unfold emitTask
  simp only [hbody, hremaps, Bool.false_eq_true, if_false, if_true]
  refine (readSReg_grows hF hs _ _).ends.bind fun Pid F₁ h => ?_
  obtain ⟨hF₁, hg₁, hs⟩ := h
  refine (emitRemap_grows hF₁ hs (by simp)).ends.bind fun Task F₂ h => ?_
  obtain ⟨hF₂, hg₂, p, t, rfl, hp, hav, hblock, hphi⟩ := h
  have hg := hg₁.trans hg₂
  have hparent : (F₂.parent IP).getD F₂.cfg.entry = t := by
    obtain ⟨l, I, post, hat⟩ := hblock
    rw [hat.parent_eq hF₂.wellFormed]
    rfl
  refine ⟨F₂, p, t, ⟨hF₂, hgrowth.trans hg, hp, hav, hblock, hphi⟩, hg, rfl, ?_⟩
  rw [← hparent]
  rfl

section

variable {a : Axis} {p t w b : ℕ} {K : Instr} {x : Operand}

/-- A read of the axis is a call. -/
theorem exists_of_mem_ctaidReads (hv : v ∈ F₀.ctaidReads a) :
    ∃ b, ∃ I ∈ F₀.body b, I.id = v ∧ I.sreg = some (.ctaid a) := by
  obtain ⟨I, hI, rfl⟩ := List.mem_map.1 hv
  obtain ⟨hI, hsreg⟩ := List.mem_filter.1 hI
  obtain ⟨b, -, hI⟩ := List.mem_flatMap.1 hI
  exact ⟨b, I, hI, rfl, by simpa using hsreg⟩

theorem notMem_ctaidReads (hF₀ : F₀.WellFormed) (hK : K ∈ F₀.body b)
    (hop : ∀ i n, K.op ≠ .call (some i) (some n)) : K.id ∉ F₀.ctaidReads a := by
  intro hmem
  obtain ⟨i, n, hcall⟩ := Instr.op_of_sreg ((hF₀.mem_ctaidReads hK).1 hmem)
  exact hop i n hcall

theorem lt_of_mem_ctaidReads (hF₀ : F₀.WellFormed) (hv : v ∈ F₀.ctaidReads a) : v < F₀.next := by
  obtain ⟨b, I, hI, rfl, -⟩ := exists_of_mem_ctaidReads hv
  exact hF₀.fresh b I.id (List.mem_map_of_mem hI)

theorem Operand.All.notMem_reads (hF₀ : F₀.WellFormed) (hx : x.All (F₀.next ≤ ·)) :
    x.All (· ∉ F₀.ctaidReads a) :=
  hx.mono fun _ hu hmem => absurd (lt_of_mem_ctaidReads hF₀ hmem) (not_lt.2 hu)

/-- Behind the builder the task can be used. -/
theorem TaskPHI.availableAt (h : TaskPHI F₀ F IP p t) (hw : F.Below IP w) :
    F.AvailableAt w (.inst p) := by
  have hs : F.Scope IP [.inst p] := ⟨h.available.spot, by simpa using h.available⟩
  exact (hs.below h.edited.wellFormed hw).2 _ (by simp)

theorem TaskPHI.handsOver (h : TaskPHI F₀ F IP p t) (hF₀ : F₀.WellFormed)
    (hIP : W.insertionPoint F₀ = some IP) : HandsOver F (F₀.ctaidReads a) p where
  not_mem := fun hmem => absurd (lt_of_mem_ctaidReads hF₀ hmem) (not_lt.2 h.next_le)
  available := by
    intro v hv
    obtain ⟨b, I, hI, rfl, hsreg⟩ := exists_of_mem_ctaidReads hv
    obtain ⟨i, n, hop⟩ := Instr.op_of_sreg hsreg
    exact h.availableAt
      (h.growth.below (below_insertionPoint hF₀ hIP hI (by simp [hop]) (by simp [hop])))
  plain := by
    intro b I hI hid
    obtain ⟨c, I₀, hI₀, hid₀, hop₀⟩ := old_of_lt h.edited hI (lt_of_mem_ctaidReads hF₀ hid)
    obtain ⟨i, n, hop⟩ := Instr.op_of_sreg ((hF₀.mem_ctaidReads hI₀).1 (hid₀ ▸ hid))
    rw [← hop₀, hop]
    exact ⟨nofun, nofun⟩

/-- The function whose reads are replaced by argument `k`, with the task in the place of it. -/
def remapOrigin (F₀ : Func) (a : Axis) (p t k : ℕ) : Origin :=
  { func := F₀.replaceReads a (.arg k), next := F₀.next, tasks := [p], arg := k, starts := [t] }

theorem TaskPHI.edited_handOver (h : TaskPHI F₀ F IP p t) (hF₀ : F₀.WellFormed)
    (hvalid : F₀.Valid) (hphis : F₀.PhisName) (hIP : W.insertionPoint F₀ = some IP) (k : ℕ) :
    Edited (remapOrigin F₀ a p t k) (F.handOver (F₀.ctaidReads a) (.inst p)) := by
  have hhands : HandsOver F (F₀.ctaidReads a) p := h.handsOver hF₀ hIP
  obtain ⟨S, R, hS, hR, -⟩ := h.edited.instruments
  have hview : (Origin.of F₀).view F = F := Func.asArgument_nil F
  rw [hview] at hS
  refine ⟨h.edited.wellFormed.handOver hhands, h.edited.valid.handOver h.edited.wellFormed hhands,
    h.edited.phisName.handOver hhands, ?_, _, R, hS.handOver (closed_of_valid hF₀ hvalid hphis)
      hhands h.next_le fun v hv => lt_of_mem_ctaidReads hF₀ hv, hR, ?_⟩
  · rw [(handOver_cfg F).2.2]
    exact h.edited.next_le
  · -- the builder's block is a piece of the entry, where the builder stood
    intro t' ht'
    obtain rfl := List.mem_singleton.1 ht'
    obtain ⟨l, I, post, hat⟩ := h.inBlock
    obtain ⟨l₀, J, post₀, hat₀, -⟩ := at_insertionPoint hF₀ hIP
    have ht := hat.mem_blocks h.edited.wellFormed
    have hJ : J ∈ F₀.body F₀.cfg.entry := hat₀.body_eq ▸ List.mem_append_right _ (List.mem_cons_self ..)
    have hI : I ∈ F.body t' := hat.body_eq ▸ List.mem_append_right _ (List.mem_cons_self ..)
    have hid : I.id = J.id := hat.id_eq.trans hat₀.id_eq.symm
    obtain ⟨I₀, hI₀, hid₀, -⟩ := old_of_instruments hS ht hI
      (hid ▸ hF₀.fresh _ _ (List.mem_map_of_mem hJ))
    refine ⟨(handOver_cfg F).2.1 ▸ ht, ?_⟩
    show S.home t' = (F₀.handOver (F₀.ctaidReads a) (.arg k)).cfg.entry
    rw [(handOver_cfg F₀).1]
    exact hF₀.ids_block _ _ I₀.id (List.mem_map_of_mem hI₀)
      (hid₀.trans hid ▸ List.mem_map_of_mem hJ)

/-- The builder goes on behind the PHIs of its block. -/
theorem at_firstInsertionPt (IP : ℕ) {F' : Func} (hF' : F'.WellFormed) (hphi : F'.HasPHI t p) :
    ∃ l I post, F'.At (firstInsertionPt F' t IP) t l I post ∧ p ∈ l.map Instr.id ∧
      ∀ J ∈ l, J.op = .phi := by
  obtain ⟨P, hP, rfl, hop⟩ := hphi
  have hpoint := point_phis hF' (hF'.body_mem t P hP)
  obtain ⟨I, post, hpost⟩ := List.exists_cons_of_ne_nil hpoint.ne_nil
  have hnot := hpoint.not_phi
  have hphis : ∀ J ∈ (F'.body t).takeWhile (fun I => I.op == .phi), J.op = .phi := fun J hJ => by
    simpa using List.mem_takeWhile_imp hJ
  have hid : firstInsertionPt F' t IP = I.id := by
    unfold firstInsertionPt
    have hpred : (fun I : Instr => !(I.op != .phi)) = fun I => I.op == .phi := by
      funext I
      rw [bne, Bool.not_not]
    rw [List.find?_eq_head?_dropWhile_not, hpred, hpost]
    rfl
  refine ⟨_, I, post, ⟨hpoint.body_eq.trans (by rw [hpost]), hid.symm, ?_⟩, ?_, hphis⟩
  · exact hnot I (hpost ▸ List.mem_cons_self ..)
  · rw [hpoint.body_eq, List.mem_append] at hP
    exact List.mem_map_of_mem (hP.resolve_right fun h => hnot P h hop)

/-- What came behind the builder and is no read still does. -/
theorem TaskPHI.below (h : TaskPHI F₀ F IP p t) (hF₀ : F₀.WellFormed)
    (hIP : W.insertionPoint F₀ = some IP) (hw : F.Below IP w) (hread : w ∉ F₀.ctaidReads a) :
    (F.handOver (F₀.ctaidReads a) (.inst p)).Below
      (firstInsertionPt (F.handOver (F₀.ctaidReads a) (.inst p)) t IP) w := by
  have hhands : HandsOver F (F₀.ctaidReads a) p := h.handsOver hF₀ hIP
  have hF' := h.edited.wellFormed.handOver hhands
  obtain ⟨l, I, post, hat, -, hl⟩ := at_firstInsertionPt IP hF'
    (hhands.hasPHI hhands.not_mem h.hasPHI)
  have hp : (Operand.inst p).All (· ∉ F₀.ctaidReads a) := hhands.not_mem
  obtain ⟨c, q, K, r, hatw, hav⟩ := hhands.availableAt hread hp (h.availableAt hw)
  have hK := hatw.id_eq
  refine ⟨⟨c, q, K, r, hatw⟩, ?_⟩
  generalize firstInsertionPt _ t IP = IP' at hat ⊢
  by_cases hct : c = t
  · -- in the builder's block, whatever is no PHI comes behind the PHIs
    subst hct
    have hmem := hatw.body_eq.symm.trans hat.body_eq
    rcases List.append_eq_append_iff.1 hmem with ⟨s, rfl, hs⟩ | ⟨s, rfl, hs⟩
    · cases s with
      | nil =>
          left
          rw [List.nil_append] at hs
          rw [← hat.id_eq, ← hK, (List.cons_eq_cons.1 hs).1]
      | cons J s =>
          rw [List.cons_append] at hs
          obtain rfl := (List.cons_eq_cons.1 hs).1
          exact absurd (hl K (by simp)) hatw.not_phi
    · cases s with
      | nil =>
          left
          rw [List.nil_append] at hs
          rw [← hat.id_eq, ← hK, ← (List.cons_eq_cons.1 hs).1]
      | cons J s =>
          right
          rw [List.cons_append] at hs
          obtain rfl := (List.cons_eq_cons.1 hs).1
          refine ⟨c, _, K, r, hatw, Or.inl ?_⟩
          rw [List.map_append, List.map_cons, hat.id_eq]
          simp
  · right
    have hids : ∀ {d u}, u ∈ (F.handOver (F₀.ctaidReads a) (.inst p)).ids d → u ∈ F.ids d :=
      fun h => (hhands.mem_ids.1 h).1
    have hIPt : IP ∈ F.ids t := by
      obtain ⟨l, I, post, hat⟩ := h.inBlock
      rw [Func.ids, hat.body_eq, List.map_append, List.map_cons, hat.id_eq]
      simp
    have hwc : w ∈ F.ids c := by
      refine hids ?_
      rw [Func.ids, hatw.body_eq, List.map_append, List.map_cons, hK]
      simp
    have hIP' : IP' ∈ (F.handOver (F₀.ctaidReads a) (.inst p)).ids t := by
      rw [Func.ids, hat.body_eq, List.map_append, List.map_cons, hat.id_eq]
      simp
    refine ⟨c, q, K, r, hatw, Or.inr ⟨t, hIP', ?_⟩⟩
    rw [(handOver_cfg F).1]
    obtain ⟨-, rfl | ⟨d, l', I', r', hat', hd | ⟨e, he, hdom⟩⟩⟩ := hw
    · exact absurd (h.edited.wellFormed.ids_block c t w hwc hIPt) hct
    · refine absurd (h.edited.wellFormed.ids_block c t IP ?_ hIPt) hct
      have hwd : w ∈ F.ids d := by
        rw [Func.ids, hat'.body_eq, List.map_append, List.map_cons, hat'.id_eq]
        simp
      rw [h.edited.wellFormed.ids_block c d w hwc hwd, Func.ids, hat'.body_eq, List.map_append]
      exact List.mem_append_left _ hd
    · have hwd : w ∈ F.ids d := by
        rw [Func.ids, hat'.body_eq, List.map_append, List.map_cons, hat'.id_eq]
        simp
      rw [h.edited.wellFormed.ids_block c d w hwc hwd,
        h.edited.wellFormed.ids_block t e IP hIPt he]
      exact hdom

end

/-! ## The whole function -/

/-- A function woven with the task in PHI `p` of block `t` in the place of the reads of axis `a`. -/
structure Remapped (F₀ F : Func) (a : Axis) (p t : ℕ) : Prop where
  edited : ∀ k, Edited (remapOrigin F₀ a p t k) F
  hasPHI : F.HasPHI t p
  calls : ∀ b l I post, F.body b = l ++ I :: post → I.callsNothing = false →
    F.Available b (l.map Instr.id) p

theorem exists_insertionPoint (hF₀ : F₀.WellFormed) : ∃ IP, W.insertionPoint F₀ = some IP := by
  obtain ⟨q, T, hq, hT, -⟩ := hF₀.terminated _ hF₀.entry_mem
  have hpoint := point_phis hF₀ hF₀.entry_mem
  have hmem : T ∈ (F₀.body F₀.cfg.entry).dropWhile fun I => I.op == .phi := by
    have hmem : T ∈ F₀.body F₀.cfg.entry := hq ▸ List.mem_append_right _ (List.mem_singleton_self _)
    rw [hpoint.body_eq, List.mem_append] at hmem
    refine hmem.resolve_left fun h => ?_
    have := List.mem_takeWhile_imp h
    simp [hT] at this
  unfold insertionPoint
  cases hdrop : ((F₀.body F₀.cfg.entry).dropWhile fun I => I.op == .phi).dropWhile
      fun I => I.op == .other && W.isAlloca I with
  | nil =>
      have := List.dropWhile_eq_nil_iff.1 hdrop T hmem
      simp [hT] at this
  | cons I rest => exact ⟨I.id, rfl⟩

section

variable {a : Axis} {p t b k : ℕ} {I : Instr}

theorem mem_replaceReads (hI : I ∈ (F₀.replaceReads a (.arg k)).body b) :
    ∃ J ∈ F₀.body b, J.id ∉ F₀.ctaidReads a ∧ I.id = J.id ∧ I.op = J.op := by
  have hbody : (F₀.replaceReads a (.arg k)).body b = _ :=
    handOver_body (fun w hw => by cases hw) F₀ b
  rw [hbody] at hI
  obtain ⟨J, hJ, hread, rfl⟩ := mem_handedOver hI
  exact ⟨J, hJ, hread, rfl, rfl⟩

variable (hF₀ : F₀.WellFormed) (hIP : W.insertionPoint F₀ = some IP) (h : TaskPHI F₀ F IP p t)

include hF₀ hIP h

/-- The returns of what is woven come behind the builder, with the clock's values. -/
theorem TaskPHI.below_of_mem_returns {Clock : Option (Operand × Operand)}
    (hClock : ∀ q ∈ Clock, (F.AvailableAt IP q.1 ∧ q.1.All (F₀.next ≤ ·)) ∧ F.AvailableAt IP q.2 ∧
      q.2.All (F₀.next ≤ ·)) {F' : Func} (hF' : Edited (remapOrigin F₀ a p t k) F')
    (hgrowth : Growth (F.handOver (F₀.ctaidReads a) (.inst p)) F') {w : ℕ} (hw : w ∈ W.returns F') :
    F'.Below (firstInsertionPt (F.handOver (F₀.ctaidReads a) (.inst p)) t IP) w ∧
      ∀ q ∈ Clock, F'.AvailableAt w q.1 ∧ F'.AvailableAt w q.2 := by
  obtain ⟨b, T, hT, rfl, hop⟩ := old_of_mem_returns hF' hw
  obtain ⟨J, hJ, hread, hid, hJop⟩ := mem_replaceReads hT
  rw [hop] at hJop
  rw [hid]
  have hbelow : F.Below IP J.id := h.growth.below
    (below_insertionPoint hF₀ hIP hJ (by simp [← hJop]) (by simp [← hJop]))
  refine ⟨hgrowth.below (h.below hF₀ hIP hbelow hread), fun q hq => ?_⟩
  obtain ⟨⟨hav₁, hnew₁⟩, hav₂, hnew₂⟩ := hClock q hq
  have hhands : HandsOver F (F₀.ctaidReads a) p := h.handsOver hF₀ hIP
  have hs : F.Scope IP [q.1, q.2] := ⟨h.available.spot, by simp [hav₁, hav₂]⟩
  have hs := hs.below h.edited.wellFormed hbelow
  exact ⟨hgrowth.available _ _ (hhands.availableAt hread (Operand.All.notMem_reads hF₀ hnew₁)
      (hs.2 _ (by simp))),
    hgrowth.available _ _ (hhands.availableAt hread (Operand.All.notMem_reads hF₀ hnew₂)
      (hs.2 _ (by simp)))⟩

/-- Before the task is computed, nothing is called. -/
theorem TaskPHI.remapped {F' : Func} (hF' : ∀ k, Edited (remapOrigin F₀ a p t k) F')
    (hgrowth : Growth (F.handOver (F₀.ctaidReads a) (.inst p)) F') : Remapped F₀ F' a p t where
  edited := hF'
  hasPHI := by
    have hhands : HandsOver F (F₀.ctaidReads a) p := h.handsOver hF₀ hIP
    exact hgrowth.hasPHI t p (hhands.hasPHI hhands.not_mem h.hasPHI)
  calls := by
    intro b l I post hbody hcall
    have hhands : HandsOver F (F₀.ctaidReads a) p := h.handsOver hF₀ hIP
    have hI : I ∈ F'.body b := hbody ▸ List.mem_append_right _ (List.mem_cons_self ..)
    have hold : I.id < F₀.next := by
      by_contra hnew
      obtain ⟨S, R, hS, -⟩ := (hF' 0).instruments
      have hquiet := hS.quiet b (I.asArgument F₀.next [p] 0) (List.mem_map_of_mem hI)
        (by rw [Instr.asArgument_id]; exact not_lt.1 hnew)
      rw [Instr.callsNothing, Instr.asArgument_op, ← Instr.callsNothing, hcall] at hquiet
      cases hquiet
    obtain ⟨c, I₀, hI₀, hid₀, hop₀⟩ := old_of_lt (hF' 0) hI hold
    obtain ⟨J, hJ, hread, hid, hop⟩ := mem_replaceReads hI₀
    have hJop : J.op = I.op := hop.symm.trans hop₀
    have hJid : J.id = I.id := hid.symm.trans hid₀
    have hnot : I.op ≠ .phi ∧ I.op ≠ .other := by
      constructor <;> intro hop <;> rw [Instr.callsNothing, hop] at hcall <;> cases hcall
    have hbelow : F.Below IP J.id := h.growth.below
      (below_insertionPoint hF₀ hIP hJ (hJop ▸ hnot.1) (hJop ▸ hnot.2))
    have hp : (Operand.inst p).All (· ∉ F₀.ctaidReads a) := hhands.not_mem
    have hav := hgrowth.available _ _ (hhands.availableAt hread hp (h.availableAt hbelow))
    have hat : F'.At J.id b l I post := ⟨hbody, hJid.symm, hnot.1⟩
    exact hat.available (hF' 0).wellFormed hav

/-- What is emitted behind the task leaves a remapped function. -/
theorem TaskPHI.remapped_rest (hvalid : F₀.Valid) (hphis : F₀.PhisName)
    (hsheds : W.sheds (W.sites F₀) = false)
    (hcopies : ∀ A ∈ W.copies F₀, A.Gmem.All (· ∉ F₀.ctaidReads a))
    {Clock : Option (Operand × Operand)}
    (hClock : ∀ q ∈ Clock, (F.AvailableAt IP q.1 ∧ q.1.All (F₀.next ≤ ·)) ∧ F.AvailableAt IP q.2 ∧
      q.2.All (F₀.next ≤ ·)) {F₂ : Func} (hF₂ : F₂ = F.handOver (F₀.ctaidReads a) (.inst p)) :
    Ends (W.emitRest (W.sites F₀) (W.copies F₀) Clock (firstInsertionPt F₂ t IP) (.inst p)) F₂
      fun _ F' => Remapped F₀ F' a p t := by
  subst hF₂
  have hhands : HandsOver F (F₀.ctaidReads a) p := h.handsOver hF₀ hIP
  have hnew := h.edited_handOver hF₀ hvalid hphis hIP (a := a)
  obtain ⟨l, I, post, hat, hp, -⟩ := at_firstInsertionPt IP (hnew 0).wellFormed
    (hhands.hasPHI hhands.not_mem h.hasPHI)
  have hs : (F.handOver (F₀.ctaidReads a) (.inst p)).Scope _ [.inst p] :=
    ⟨⟨_, _, _, _, hat⟩, by simpa using ⟨_, _, _, _, hat, Or.inl hp⟩⟩
  have hback : ∀ {b : ℕ} {K : Instr}, K ∈ F₀.body b → K.op ≠ .phi → K.op ≠ .other →
      F.Below IP K.id := fun hK hphi hother =>
    h.growth.below (below_insertionPoint hF₀ hIP hK hphi hother)
  have hrest : ∀ k, Weaves (remapOrigin F₀ a p t k)
      (W.emitRest (W.sites F₀) (W.copies F₀) Clock
        (firstInsertionPt (F.handOver (F₀.ctaidReads a) (.inst p)) t IP) (.inst p))
      (F.handOver (F₀.ctaidReads a) (.inst p)) fun _ _ => True := by
    intro k
    refine emitRest_grows (hnew k) hs hsheds (fun S hS => ?_) (fun A hA => ?_)
      fun G hG hgrowth w hw => h.below_of_mem_returns hF₀ hIP hClock hG hgrowth hw
    · obtain ⟨b, K, hK, hid, hop⟩ := exists_of_mem_sites hS
      rw [← hid]
      exact h.below hF₀ hIP (hback hK (by simp [hop]) (by simp [hop]))
        (notMem_ctaidReads hF₀ hK (by simp [hop]))
    · obtain ⟨b, K, hK, hid, hop, -⟩ := exists_of_mem_copies hF₀ hA
      have hread : A.Copy ∉ F₀.ctaidReads a := hid ▸ notMem_ctaidReads hF₀ hK (by simp [hop])
      have hGmem := (below_of_mem_copies hF₀ hvalid hIP hA).2
      refine ⟨?_, hhands.availableAt hread (hcopies A hA) (h.growth.available _ _ hGmem)⟩
      exact h.below hF₀ hIP (hid ▸ hback hK (by simp [hop]) (by simp [hop])) hread
  exact h.remapped hF₀ hIP (fun k => (hrest k).1) (hrest 0).2.1

end

/-- **With the task indirection, what is woven is the function whose reads are an argument,
    instrumented**, with the task in the place of the argument. -/
theorem remapped_run (hF₀ : F₀.WellFormed) (hvalid : F₀.Valid) (hphis : F₀.PhisName)
    (hremaps : W.remaps = true) (hsheds : W.sheds (W.sites F₀) = false)
    (hcopies : ∀ A ∈ W.copies F₀, A.Gmem.All (· ∉ F₀.ctaidReads (axisOf W.C.slotAxis))) :
    ∃ p t, Remapped F₀ (W.run.run F₀).2 (axisOf W.C.slotAxis) p t := by
  have hedited := Edited.refl hF₀ hvalid hphis
  obtain ⟨IP, hIP⟩ := exists_insertionPoint (W := W) hF₀
  suffices Ends W.run F₀ fun _ F => ∃ p t, Remapped F₀ F (axisOf W.C.slotAxis) p t from this
  refine Ends.bind (Q := fun G F' => G = F₀ ∧ F' = F₀) ⟨rfl, rfl⟩ fun G F' hG => ?_
  obtain ⟨rfl, rfl⟩ := hG
  simp only [hIP]
  obtain ⟨l, I, post, hat, -⟩ := at_insertionPoint hF₀ hIP
  have hs : F'.Scope IP [] := ⟨⟨_, l, I, post, hat⟩, by simp⟩
  refine (emitClock_grows hedited hs).ends.bind fun Clock F₁ h => ?_
  obtain ⟨hF₁, hg₁, hClock⟩ := h
  refine (emitTask_remaps hg₁ hF₁ (hg₁.scope hs) hremaps _).bind fun q F₂ h => ?_
  obtain ⟨F₁', p, t, hTask, hg₂, hF₂, rfl⟩ := h
  refine ⟨p, t, hTask.remapped_rest hF₀ hIP hvalid hphis hsheds hcopies (fun q hq => ?_) hF₂⟩
  obtain ⟨⟨hav₁, hnew₁⟩, hav₂, hnew₂⟩ := hClock q hq
  exact ⟨⟨hg₂.available _ _ hav₁, hnew₁⟩, hg₂.available _ _ hav₂, hnew₂⟩

end Weaver

end SchedPass
