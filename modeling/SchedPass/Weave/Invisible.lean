import SchedPass.Weave.Emitted
import SchedPass.Weave.Indirect

set_option autoImplicit false

/-! # Hints and observations are not seen (`SchedWeavePass::run`)

The prefetches, the discards, the launch points and the timer are hints and observations: with the task
indirection and the shed masks off, a woven kernel computes what the kernel computed. Whatever the new
instructions read, write and decide, it makes the same accesses in the same order and returns the same
value, also where it does not terminate (`SchedWeavePass.run_invisible`). That new instructions leave
the memory alone that the old ones read, as discards of clean lines do, is part of what `Probes` says. -/

namespace SchedPass

open Observed

/-! ## The pass -/

/-- The weaver of a function. -/
def Weaver.into (W : Weaver) (F : Fn) : Weaver :=
  { W with IsBody := F.taskBody, arg_size := F.code.arity }

def Weaver.weaveFn (W : Weaver) (F : Fn) : Fn :=
  let woven := (W.into F).run.run F.code.func
  if woven.1 then
    { F with
      code := { F.code with func := woven.2 }
      instrumented := true
      instrumented_of_remapped := fun _ => rfl }
  else F

/-- `SchedWeavePass::run`; LLVM says something of every function. -/
def SchedWeavePass.run (W : String → Weaver) (M : Module) : Module := fun g =>
  (M g).map fun F => if F.woven then (W g).weaveFn F else F

/-- Neither the task indirection nor the shed masks are woven into the function. -/
def Weaver.OnlyHints (W : Weaver) (F : Fn) : Prop :=
  (W.into F).remaps = false ∧ (W.into F).sheds ((W.into F).sites F.code.func) = false

/-- A function in SSA form. -/
def Fn.Ssa (F : Fn) : Prop :=
  F.code.func.WellFormed ∧ F.code.func.Valid ∧ F.code.func.PhisName

/-! ## Woven functions -/

section

variable {W : Weaver} {F : Fn} {N : String → ℕ} {R : ℕ}

theorem Weaver.weaveFn_kernel : (W.weaveFn F).kernel = F.kernel := by
  unfold weaveFn
  dsimp only
  split_ifs <;> rfl

theorem Weaver.weaveFn_name : (W.weaveFn F).code.name = F.code.name := by
  unfold weaveFn
  dsimp only
  split_ifs <;> rfl

/-- A function that only hints are woven into is an instrumented one. -/
theorem Weaver.edited_weaveFn (hF : F.Ssa) (hW : W.OnlyHints F) :
    Edited (.of F.code.func) (W.weaveFn F).code.func := by
  unfold weaveFn
  dsimp only
  split_ifs
  · exact edited_run hF.1 hF.2.1 hF.2.2 hW.1 hW.2
  · exact Edited.refl hF.1 hF.2.1 hF.2.2

theorem Edited.instrumentsCode {P P' : Code} (h : Edited (.of P.func) P'.func) (hname : P'.name = P.name)
    (hP : P.func.WellFormed) (hvalid : P.func.Valid) (hphis : P.func.PhisName)
    (hN : N P.name = P.func.next) : ∃ R, InstrumentsCode N R P P' := by
  obtain ⟨S, R, hS, hR, -⟩ := h.instruments
  have hview : (Origin.of P.func).view P'.func = P'.func := Func.asArgument_nil _
  rw [hview] at hS
  exact ⟨R, S, hname, hN ▸ closed_of_valid hP hvalid hphis, hN ▸ hS, hR⟩

theorem InstrumentsCode.mono {P P' : Code} {R' : ℕ} (h : InstrumentsCode N R P P') (hR : R ≤ R') :
    InstrumentsCode N R' P P' := by
  obtain ⟨S, hname, hclosed, hfunc, hrank⟩ := h
  exact ⟨S, hname, hclosed, hfunc, fun b => (hrank b).trans hR⟩

end

/-! ## Woven modules -/

section

variable (W : String → Weaver) (M : Module) (fns : List String) (hfinite : ∀ g, g ∉ fns → M g = none)
  (hM : ∀ g F, M g = some F → F.Ssa) (N : String → ℕ)
  (hN : ∀ g F, M g = some F → N F.code.name = F.code.func.next)

theorem SchedWeavePass.run_eq {g : String} {F : Fn} (hF : M g = some F) :
    run W M g = some (if F.woven then (W g).weaveFn F else F) := by
  rw [run, hF]
  rfl

include hM in
theorem SchedWeavePass.edited_run {g : String} {F : Fn} (hF : M g = some F)
    (hW : F.woven = true → (W g).OnlyHints F) :
    ∃ F', run W M g = some F' ∧ Edited (.of F.code.func) F'.code.func ∧ F'.code.name = F.code.name := by
  have hrun := run_eq W M hF
  by_cases hwoven : F.woven = true
  · rw [if_pos hwoven] at hrun
    exact ⟨_, hrun, Weaver.edited_weaveFn (hM g F hF) (hW hwoven), Weaver.weaveFn_name⟩
  · rw [if_neg hwoven] at hrun
    obtain ⟨hwf, hvalid, hphis⟩ := hM g F hF
    exact ⟨F, hrun, Edited.refl hwf hvalid hphis, rfl⟩

include hfinite hM hN in
/-- One bound for all functions that only hints are woven into. -/
theorem SchedWeavePass.exists_instrumentsCode : ∃ R, ∀ g F F', M g = some F →
    (F.woven = true → (W g).OnlyHints F) → run W M g = some F' → InstrumentsCode N R F.code F'.code := by
  have hone : ∀ g, ∃ R, ∀ F F', M g = some F → (F.woven = true → (W g).OnlyHints F) →
      run W M g = some F' → InstrumentsCode N R F.code F'.code := by
    intro g
    by_cases hg : ∃ F, M g = some F ∧ (F.woven = true → (W g).OnlyHints F)
    · obtain ⟨F, hF, hW⟩ := hg
      obtain ⟨F', hF', hedited, hname⟩ := edited_run W M hM hF hW
      obtain ⟨hwf, hvalid, hphis⟩ := hM g F hF
      obtain ⟨R, hR⟩ := hedited.instrumentsCode hname hwf hvalid hphis (hN g F hF)
      refine ⟨R, fun G G' hG _ hG' => ?_⟩
      obtain rfl := Option.some_inj.1 (hF.symm.trans hG)
      obtain rfl := Option.some_inj.1 (hF'.symm.trans hG')
      exact hR
    · exact ⟨0, fun F F' hF hW _ => absurd ⟨F, hF, hW⟩ hg⟩
  choose R hR using hone
  refine ⟨(fns.map R).sum, fun g F F' hF hW hF' => (hR g F F' hF hW hF').mono ?_⟩
  have hg : g ∈ fns := by
    by_contra hg
    rw [hfinite g hg] at hF
    cases hF
  exact List.single_le_sum (by simp) _ (List.mem_map_of_mem hg)

/-- A device function calls the woven ones. -/
theorem SchedWeavePass.device_instrumentsCode {R : ℕ}
    (hW : ∀ g F, M g = some F → F.kernel = false → F.woven = true → (W g).OnlyHints F)
    (hR : ∀ g F F', M g = some F → (F.woven = true → (W g).OnlyHints F) → run W M g = some F' →
      InstrumentsCode N R F.code F'.code) (f : String) :
    Option.Rel (InstrumentsCode N R) (M.device f) ((run W M).device f) := by
  unfold Module.device
  cases hF : M f with
  | none =>
      rw [run, hF]
      exact .none
  | some F =>
      have hrun := run_eq W M hF
      have hkernel : (if F.woven then (W f).weaveFn F else F).kernel = F.kernel := by
        split_ifs
        · exact Weaver.weaveFn_kernel
        · rfl
      rw [hrun]
      cases hk : F.kernel with
      | true =>
          rw [hk] at hkernel
          simp [Option.filter, hk, hkernel]
      | false =>
          rw [hk] at hkernel
          simpa [Option.filter, hk, hkernel] using hR f F _ hF (hW f F hF hk) hrun

variable (hW : ∀ g F, M g = some F → F.woven = true → (W g).OnlyHints F)

include hfinite hM hN hW

/-- **Hints and observations are not seen.** Where neither the task indirection nor the shed masks are
    woven, every woven function is valid SSA, and whatever the new instructions do, a run of a woven
    function makes the accesses of a run of the function, in the same order, and returns the same value:
    what either has done after some time, the other has done after some time. -/
theorem SchedWeavePass.run_invisible : ∃ R, ∀ g K K', M g = some K → run W M g = some K' →
    K'.code.func.WellFormed ∧ K'.code.func.Valid ∧
      ∀ {V E H : Type} (J : Meaning V E) (X : Probes V E H) (hw : Coords) (ctaid : Dim3) (args : ℕ → V)
        (n : ℕ),
        CutShort (runFrame M.device J hw n ⟨K.code, ctaid, args⟩)
            (Observed.erase Sum.getLeft? (runFrame (run W M).device (J.instrumented N X) hw
              (n * (R + 1)) ⟨K'.code, ctaid, args⟩)) ∧
          CutShort (Observed.erase Sum.getLeft? (runFrame (run W M).device (J.instrumented N X) hw n
              ⟨K'.code, ctaid, args⟩))
            (runFrame M.device J hw (n + 1) ⟨K.code, ctaid, args⟩) := by
  obtain ⟨R, hR⟩ := exists_instrumentsCode W M fns hfinite hM N hN
  refine ⟨R, fun g K K' hK hK' => ?_⟩
  obtain ⟨K'', hK'', hedited, -⟩ := edited_run W M hM hK (hW g K hK)
  obtain rfl := Option.some_inj.1 (hK''.symm.trans hK')
  refine ⟨hedited.wellFormed, hedited.valid, fun J X hw ctaid args n => ?_⟩
  exact run_instrumented (device_instrumentsCode W M N (fun f F hF _ => hW f F hF) hR)
    (hR g K K'' hK (hW g K hK) hK') ctaid args n

end

/-- A weaver with every hint, for the kernel that gathers pages. -/
def gatherWeaver : Weaver :=
  { WeaveAnalyses.oneLoopWeave [.inst 7] with
    C := { indirect := false, shed := false, pdl := true }
    R := { taskOrder := {}, ctrl := { bakedAddr := 64 }, timer := { bakedAddr := 4096 } }
    IsBody := false
    arg_size := 3
    smVersion := 90
    constant := fun _ => 0
    isAlloca := fun _ => false
    isReturn := fun _ => true
    isIntegerTy64 := fun _ => false
    GmemArg := fun _ => 0 }

def gatherModule : Module := fun g =>
  if g = "paged" then some { storeTileFn with code := WeaveAnalyses.pagedGather } else none

theorem gatherModule_eq {g : String} {F : Fn} (hF : gatherModule g = some F) :
    F = { storeTileFn with code := WeaveAnalyses.pagedGather } := by
  unfold gatherModule at hF
  split_ifs at hF
  exact (Option.some_inj.1 hF).symm

theorem gatherModule_ssa {g : String} {F : Fn} (hF : gatherModule g = some F) : F.Ssa := by
  have hwf : WeaveAnalyses.pagedGather.func.WellFormed :=
    SiteAnalyses.oneLoop_wellFormed (by decide +kernel)
  obtain rfl := gatherModule_eq hF
  refine ⟨hwf, hwf.valid_of_check (by decide +kernel), fun b I hI p hp => ?_⟩
  have hcheck : ∀ I ∈ WeaveAnalyses.pagedGather.func.instructions, ∀ p ∈ I.incoming,
      p.1 ∈ WeaveAnalyses.pagedGather.func.blocks := by decide +kernel
  exact hcheck I (List.mem_flatMap.2 ⟨b, hwf.body_mem b I hI, hI⟩) p hp

theorem run_invisible_gather : ∃ R K', SchedWeavePass.run (fun _ => gatherWeaver) gatherModule "paged"
      = some K' ∧ K'.code.func.WellFormed ∧ K'.code.func.Valid ∧
    ∀ {V E H : Type} (J : Meaning V E) (X : Probes V E H) (hw : Coords) (ctaid : Dim3) (args : ℕ → V)
      (n : ℕ),
      CutShort (runFrame gatherModule.device J hw n ⟨WeaveAnalyses.pagedGather, ctaid, args⟩)
          (Observed.erase Sum.getLeft? (runFrame (SchedWeavePass.run (fun _ => gatherWeaver)
            gatherModule).device (J.instrumented (fun _ => 14) X) hw (n * (R + 1))
              ⟨K'.code, ctaid, args⟩)) ∧
        CutShort (Observed.erase Sum.getLeft? (runFrame (SchedWeavePass.run (fun _ => gatherWeaver)
            gatherModule).device (J.instrumented (fun _ => 14) X) hw n ⟨K'.code, ctaid, args⟩))
          (runFrame gatherModule.device J hw (n + 1) ⟨WeaveAnalyses.pagedGather, ctaid, args⟩) := by
  obtain ⟨R, hR⟩ := SchedWeavePass.run_invisible (fun _ => gatherWeaver) gatherModule ["paged"]
    (fun g hg => if_neg (by simpa using hg)) (fun g F hF => gatherModule_ssa hF) (fun _ => 14)
    (fun g F hF => gatherModule_eq hF ▸ rfl)
    (fun g F _ _ => ⟨by simp [Weaver.remaps, Weaver.into, gatherWeaver], rfl⟩)
  obtain ⟨K', hK'⟩ : ∃ K', SchedWeavePass.run (fun _ => gatherWeaver) gatherModule "paged" = some K' :=
    ⟨_, rfl⟩
  obtain ⟨hwf', hvalid', hruns⟩ := hR "paged" _ K' rfl hK'
  exact ⟨R, K', hK', hwf', hvalid', hruns⟩

end SchedPass
