import SchedPass.Weave.ShedEdits

set_option autoImplicit false

/-! # Which masks the sites get

`emitShedAll` decides each site on the function that the sites before it have left: the score is
searched anew, through the masks already woven. `shedMasks` is the record of these decisions. -/

namespace SchedPass

namespace Analyses

open Func

variable {A : Analyses} {F F' F'' : Func} {x y M L IV Ld Ctr : ℕ} {Budget dropped : Operand}

/-! ## One turn -/

/-- What the weaving of the sites relies on. -/
structure SiteInput (A : Analyses) (F : Func) (Sites : List ℕ) (Budget : Operand) : Prop
    extends A.ShedInput F Sites Budget where
  steady : A.Steady
  tidy : A.Tidy F

variable {Softmax : Bool} {Sites : List ℕ} {Ld' : ℕ} {m : ShedMask}

theorem SiteInput.computed (h : A.SiteInput F Sites Budget) (hLd : Ld ∈ Sites) : Computed F Ld :=
  Computed.of_load (h.loads Ld hLd)

/-- What a turn masks is a floating-point value. -/
theorem float_maskTarget (hA : A.Sound F.cfg) (htidy : A.Tidy F)
    (h : A.maskTarget Softmax F Ld = some M) : F.typeOf M = .floatingPoint := by
  unfold maskTarget at h
  split at h
  · next Score hscore =>
      rw [Option.some.injEq] at h
      subst h
      obtain ⟨I, hI, hmax⟩ := List.any_eq_true.1 (reaches_of_findSoftmaxScore hscore).2
      obtain ⟨hI, huses⟩ := List.mem_filter.1 ((hA.mem_useOrder _ _ _).1 hI)
      obtain ⟨b, -, hI⟩ := List.mem_flatMap.1 hI
      exact htidy.float b I hI hmax Score huses
  · split at h
    · next hload =>
        rw [Option.some.injEq] at h
        subst h
        rw [Bool.and_eq_true, decide_eq_true_eq] at hload
        exact hload.2
    · cases h

theorem coerceIV_lt (hF : F.WellFormed) {P : Instr} (hP : P ∈ F.body L) (hop : P.op = .phi) :
    (F.coerceIV L P.id).1 < (F.coerceIV L P.id).2.next := by
  rcases coerceIV_cases hF hP hop with ⟨-, heq⟩ | ⟨-, q, T, -, -, -, heq⟩
  · rw [heq]
    exact hF.fresh L P.id (List.mem_map_of_mem hP)
  · rw [heq]
    exact Nat.lt_succ_self F.next

/-- **A turn keeps what the weaving relies on; and below a load that does not reach what the turn
    masks, nothing changes.** -/
theorem emitShedSite_turn (Softmax : Bool) (h : A.SiteInput F Sites Budget) (hLd' : Ld' ∈ Sites) :
    A.Tidy (A.emitShedSite Softmax Budget F Ld') ∧
      A.Woven F (A.emitShedSite Softmax Budget F Ld') ∧
      ∀ Ld, Computed F Ld →
        (∀ m, A.shedMask Softmax F Ld' = some m → ¬ A.Reaches F Ld m.target) →
        A.SameBelow F (A.emitShedSite Softmax Budget F Ld') Ld := by
  have hF := h.wellFormed
  have hA := h.sound
  rcases emitShedSite_cases Softmax h.toShedInput hLd' with ⟨heq, -⟩ | ⟨L, P, hL, hIV, hP, hop, hcase⟩
  · rw [heq]
    exact ⟨h.tidy, Woven.refl F, fun Ld _ _ => SameBelow.refl F Ld⟩
  have hF₁ := wellFormed_coerceIV hF hP hop
  have htidy₁ := tidy_coerceIV hF h.tidy hP hop
  have hwoven₁ := woven_coerceIV hA h.steady hF hP hop
  have hext₁ := extends_coerceIV (F := F) L P.id
  have hA₁ : A.Sound (F.coerceIV L P.id).2.cfg := hext₁.cfg_eq ▸ hA
  rcases hcase with ⟨-, heq⟩ | ⟨M, hM, heq⟩
  · rw [heq]
    exact ⟨htidy₁, hwoven₁, fun Ld hLd _ => sameBelow_coerceIV hA hF hP hop hLd⟩
  have hcomp := computed_maskTarget h.toShedInput hLd' hM
  have hdropped := droppedFor_all (A := A) (F := F) Ld'
  have hfloat : (F.coerceIV L P.id).2.typeOf M = .floatingPoint :=
    hwoven₁.keeps.float hF hF₁ (float_maskTarget hA h.tidy hM)
  have hBudget : Budget.All fun v => v < (F.coerceIV L P.id).2.next := by
    obtain ⟨c, -, hc⟩ := Option.bind_eq_some_iff.1 hL
    exact (h.budget c L hc).mono fun v ⟨a, ha, _⟩ => (hF.fresh a v ha).trans_le hwoven₁.next_le
  rw [heq]
  refine ⟨?_, ?_, fun Ld hLd hnot => ?_⟩
  · exact tidy_emitMask hF₁ htidy₁ (hwoven₁.keeps.computed hcomp) (coerceIV_lt hF hP hop) hBudget
      hdropped
  · exact hwoven₁.trans (woven_emitMask hA₁ h.steady hF₁ htidy₁ hdropped hfloat)
  · have hbelow := sameBelow_coerceIV hA hF hP hop hLd
    refine hbelow.trans (sameBelow_emitMask hA₁ h.steady hF₁ hdropped (hwoven₁.keeps.computed hLd) ?_)
    rw [hbelow.reaches_iff]
    refine hnot ⟨L, M, A.droppedFor F Ld'⟩ ?_
    rw [shedMask_eq hL hIV, hM]
    rfl

/-- **A turn weaves its mask**, behind a computed floating-point value that is neither the counter nor the
    budget. -/
theorem emitShedSite_of_shedMask (h : A.SiteInput F Sites Budget) (hV : F.Valid) (hLd : Ld ∈ Sites)
    (hm : A.shedMask Softmax F Ld = some m) :
    ∃ P ∈ F.body m.loop, P.op = .phi ∧ A.getCanonicalInductionVariable F m.loop = some P.id ∧
      Computed F m.target ∧ F.typeOf m.target = .floatingPoint ∧
      A.emitShedSite Softmax Budget F Ld = (F.coerceIV m.loop P.id).2.emitMask m.target
        (F.coerceIV m.loop P.id).1 Budget m.dropped ∧
      (F.coerceIV m.loop P.id).1 ≠ m.target ∧ Budget ≠ .inst m.target := by
  have hF := h.wellFormed
  rcases emitShedSite_cases Softmax h.toShedInput hLd with ⟨-, hnone⟩ | ⟨L, P, hL, hIV, hP, hop, hcase⟩
  · rw [hm] at hnone
    cases hnone
  rw [shedMask_eq hL hIV] at hm
  rcases hcase with ⟨hnone, -⟩ | ⟨M, hM, heq⟩
  · rw [hnone] at hm
    cases hm
  rw [hM, Option.map_some, Option.some.injEq] at hm
  subst hm
  have hcomp := computed_maskTarget h.toShedInput hLd hM
  refine ⟨P, hP, hop, hIV, hcomp, float_maskTarget h.sound h.tidy hM, heq, ?_, ?_⟩
  · -- the counter is the PHI or new
    rcases coerceIV_cases hF hP hop with ⟨-, hcoerce⟩ | ⟨-, q, T, -, -, -, hcoerce⟩
    · rw [hcoerce]
      exact (hcomp.ne_phi hF hP hop).symm
    · rw [hcoerce]
      exact (hcomp.lt hF).ne'
  · -- the budget is computed strictly ahead of the loop, the masked value in it or behind it
    rintro rfl
    obtain ⟨c, -, hc⟩ := Option.bind_eq_some_iff.1 hL
    obtain ⟨a, ha, hdom⟩ := h.budget c L hc
    have hreach := h.sound.reachable c L hc
    rcases dominates_maskTarget h.toShedInput hV hLd hL hM ha with hstrict | ⟨rfl, -⟩
    · exact hreach.not_strictDom_self (hstrict.trans hdom)
    · exact hreach.not_strictDom_self hdom

/-- A turn that weaves no mask may have woven a counter. -/
theorem sublist_of_shedMask_none (h : A.ShedInput F Sites Budget) (hLd : Ld ∈ Sites)
    (hm : A.shedMask Softmax F Ld = none) (b : ℕ) :
    (F.body b).Sublist ((A.emitShedSite Softmax Budget F Ld).body b) := by
  rcases emitShedSite_cases Softmax h hLd with ⟨heq, -⟩ | ⟨L, P, hL, hIV, -, -, ⟨-, heq⟩ | ⟨M, hM, -⟩⟩
  · rw [heq]
  · rw [heq]
    exact sublist_coerceIV L P.id b
  · rw [shedMask_eq hL hIV, hM] at hm
    cases hm

theorem SiteInput.emitShedSite (h : A.SiteInput F Sites Budget) (hLd : Ld ∈ Sites) :
    A.SiteInput (A.emitShedSite Softmax Budget F Ld) Sites Budget where
  toShedInput := h.toShedInput.emitShedSite hLd
  steady := h.steady
  tidy := (emitShedSite_turn Softmax h hLd).1

/-! ## All turns -/

/-- The masks that the turns of the sites weave, each decided on the function that the turns before it
    have left. -/
def shedMasks (A : Analyses) (Softmax : Bool) (Budget : Operand) : Func → List ℕ → List ShedMask
  | _, [] => []
  | F, Ld :: Sites =>
      (A.shedMask Softmax F Ld).toList ++
        shedMasks A Softmax Budget (A.emitShedSite Softmax Budget F Ld) Sites

/-- The loop of a load. -/
def loopOf (A : Analyses) (F : Func) (Ld : ℕ) : Option ℕ := (F.parent Ld).bind A.getLoopFor

variable {G : Func} {todo : List ℕ} {s : ℕ} {scores : List ℕ}

/-- **A turn masks the score of the load; or the load itself, where it has none, where the kernel is no
    softmax and where the load is a floating-point one.** -/
theorem shedMask_eq_some_iff :
    A.shedMask Softmax F Ld = some m ↔
      A.loopOf F Ld = some m.loop ∧ (A.getCanonicalInductionVariable F m.loop).isSome ∧
        (A.findSoftmaxScore F Ld = some m.target ∧ m.dropped = .fpNegInf ∨
          A.findSoftmaxScore F Ld = none ∧ Softmax = false ∧ F.typeOf Ld = .floatingPoint ∧
            m.target = Ld ∧ m.dropped = .fpZero) := by
  obtain ⟨L, M, dropped⟩ := m
  unfold shedMask loopOf
  cases hL : (F.parent Ld).bind A.getLoopFor with
  | none => simp
  | some L' =>
      by_cases hLL : L' = L
      · subst hLL
        cases hIV : A.getCanonicalInductionVariable F L' with
        | none => simp [hIV]
        | some IV =>
            unfold maskTarget droppedFor
            cases A.findSoftmaxScore F Ld with
            | some Score => simp [eq_comm, hIV]
            | none =>
                by_cases hfloat : F.typeOf Ld = .floatingPoint <;> cases Softmax <;>
                  simp [hfloat, eq_comm, hIV]
      · cases hIV : A.getCanonicalInductionVariable F L' <;> simp [hLL, hIV]

theorem loopOf_eq (h : A.ShedInput F Sites Budget) (hG : G.WellFormed) (hwoven : A.Woven F G)
    (hLd : Ld ∈ Sites) : A.loopOf G Ld = A.loopOf F Ld := by
  obtain ⟨b, I, hI, rfl, -⟩ := h.loads Ld hLd
  obtain ⟨J, hJ, hid, -⟩ := hwoven.keeps b I hI
  rw [loopOf, loopOf, h.wellFormed.parent_eq hI, ← hid, hG.parent_eq hJ]

/-- **Where nothing has changed below a load, its turn weaves the mask it would have had.** -/
theorem shedMask_congr (Softmax : Bool) (h : A.ShedInput F Sites Budget) (hG : G.WellFormed)
    (hwoven : A.Woven F G) (hLd : Ld ∈ Sites) (hbelow : A.SameBelow F G Ld) :
    A.shedMask Softmax G Ld = A.shedMask Softmax F Ld := by
  have hloop : (G.parent Ld).bind A.getLoopFor = (F.parent Ld).bind A.getLoopFor :=
    loopOf_eq h hG hwoven hLd
  have htype : G.typeOf Ld = F.typeOf Ld := by
    obtain ⟨b, I, hI, rfl, -⟩ := h.loads Ld hLd
    exact hwoven.keeps.typeOf_eq h.wellFormed hG hI
  simp only [shedMask, maskTarget, droppedFor, hloop, hwoven.canonical, hbelow.findSoftmaxScore_eq,
    htype]

/-- A load is reached from no other load. -/
theorem eq_of_reaches_load (h : A.ShedInput F Sites Budget) (hLd' : Ld' ∈ Sites)
    (hreach : A.Reaches F Ld Ld') : Ld = Ld' := by
  rcases Relation.ReflTransGen.cases_tail hreach with heq | ⟨x, -, hfeeds⟩
  · exact heq.symm
  · obtain ⟨b, I, hI, -, hcross, hid⟩ := mem_users h.sound hfeeds
    obtain ⟨a, J, hJ, rfl, hop⟩ := h.loads Ld' hLd'
    rw [h.wellFormed.eq_of_id hI hJ hid] at hcross
    simp [isArith, isShuffle, hop] at hcross

/-! ## No site has a score -/

theorem shedMasks_linear_aux (h : A.SiteInput F Sites Budget) (htodo : todo ⊆ Sites)
    (hnone : ∀ Ld ∈ todo, A.findSoftmaxScore F Ld = none) (hnodup : todo.Nodup)
    (hG : A.SiteInput G Sites Budget) (hwoven : A.Woven F G)
    (hbelow : ∀ Ld ∈ todo, A.SameBelow F G Ld) :
    A.shedMasks false Budget G todo = todo.filterMap (A.shedMask false F) := by
  induction todo generalizing G with
  | nil => rfl
  | cons Ld' todo ih =>
      have hLd' : Ld' ∈ Sites := htodo (List.mem_cons_self ..)
      have hrest : todo ⊆ Sites := fun x hx => htodo (List.mem_cons_of_mem Ld' hx)
      have hmask := shedMask_congr false h.toShedInput hG.wellFormed hwoven hLd'
        (hbelow Ld' (List.mem_cons_self ..))
      obtain ⟨hnot, hnodup⟩ := List.nodup_cons.1 hnodup
      obtain ⟨-, hwoven', hbelow'⟩ := emitShedSite_turn false hG hLd'
      -- a turn masks its own load, which no other load reaches
      have hstill : ∀ Ld ∈ todo, A.SameBelow F (A.emitShedSite false Budget G Ld') Ld := by
        intro Ld hLd
        refine (hbelow Ld (List.mem_cons_of_mem Ld' hLd)).trans ?_
        refine hbelow' Ld (hG.computed (hrest hLd)) fun m hm hreach => hnot ?_
        have hscore : A.findSoftmaxScore G Ld' = none :=
          (hbelow Ld' (List.mem_cons_self ..)).findSoftmaxScore_eq.trans
            (hnone Ld' (List.mem_cons_self ..))
        rcases (shedMask_eq_some_iff.1 hm).2.2 with ⟨hsome, -⟩ | ⟨-, -, -, htarget, -⟩
        · rw [hscore] at hsome
          cases hsome
        · rw [htarget] at hreach
          exact eq_of_reaches_load hG.toShedInput hLd' hreach ▸ hLd
      rw [shedMasks, ih hrest (fun Ld hLd => hnone Ld (List.mem_cons_of_mem Ld' hLd)) hnodup
        (hG.emitShedSite hLd') (hwoven.trans hwoven') hstill, hmask, List.filterMap_cons]
      cases A.shedMask false F Ld' <;> rfl

/-- **Where no site has a score, every turn weaves the mask it would have woven as the first.** -/
theorem shedMasks_linear (h : A.SiteInput F Sites Budget) (hnodup : Sites.Nodup)
    (hnone : ∀ Ld ∈ Sites, A.findSoftmaxScore F Ld = none) :
    A.shedMasks false Budget F Sites = Sites.filterMap (A.shedMask false F) :=
  shedMasks_linear_aux h (List.Subset.refl Sites) hnone hnodup h (Woven.refl F)
    fun Ld _ => SameBelow.refl F Ld

end Analyses

end SchedPass
