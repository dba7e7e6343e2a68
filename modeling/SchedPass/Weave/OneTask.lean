import SchedPass.Weave.Invisible
import SchedPass.Weave.Remapped

set_option autoImplicit false

/-! # A woven kernel does the work of one block (`SchedWeavePass::run`, `Weaver::run`)

Where the task indirection is woven, each run of the kernel has one task, whatever the new instructions
compute, and what the kernel does is what the block of that task does (`SchedWeavePass.run_indirect`):
the PHI that holds the task is computed once, so the rest of the run might have been handed it as an
argument, and with the argument in the place of the reads the kernel is only instrumented. -/

namespace SchedPass

open Observed

/-! ## The task is computed once -/

section

variable {F₀ F : Func} {a : Axis} {p t k : ℕ}

/-- Only pieces of the entry lead to the task, and none of them is entered again. -/
theorem Weaver.Remapped.computedOnce (h : Weaver.Remapped F₀ F a p t) (hF₀ : F₀.WellFormed)
    (hentry : ∀ b ∈ F₀.blocks, F₀.cfg.entry ∉ F₀.cfg.succ b) :
    ∃ L rank, F.ComputedOnce p t L rank := by
  obtain ⟨S, R, hS, -, hstarts⟩ := (h.edited 0).instruments
  obtain ⟨ht, hhome⟩ := hstarts t (List.mem_singleton_self t)
  have hcfg : (F₀.replaceReads a (.arg 0)).cfg = F₀.cfg := Func.replaceReads_cfg _
  have hblocks : (F₀.replaceReads a (.arg 0)).blocks = F₀.blocks := (handOver_cfg F₀).2.1
  refine ⟨fun b => b ∈ F.blocks ∧ S.home b = F₀.cfg.entry, S.rank, h.hasPHI, ⟨ht, ?_⟩, ?_, h.calls⟩
  · rw [hhome]
    exact congrArg Cfg.entry hcfg
  · rintro b hb c hc ⟨-, hhomec⟩
    have hmem : S.home b ∈ F₀.blocks := hblocks ▸ hS.home_mem b hb
    cases hS.piece b hb with
    | last l T hbody hT hl hold hrest hsucc hlast =>
        -- the last piece leads to blocks of the function, and none of them to the entry
        have hcsucc : c ∈ F₀.cfg.succ (S.home b) := by
          rw [← hcfg]
          exact hsucc ▸ hc
        have hcmem := hF₀.succ_mem _ hmem c hcsucc
        have hself : S.home c = c := hS.home_eq c (hblocks.symm ▸ hcmem)
        rw [← hself, hhomec] at hcsucc
        exact absurd hcsucc (hentry _ hmem)
    | inner l old T hbody hT hl hnew hrest hsucc hways =>
        obtain ⟨-, -, hhome', hrank, -⟩ := hsucc c hc
        exact ⟨⟨hb, hhome'.symm.trans hhomec⟩, hrank⟩

/-- An argument in the place of the reads leaves the function closed. -/
theorem Func.Closed.replaceReads {n : ℕ} (h : F₀.Closed n) :
    (F₀.replaceReads a (.arg k)).Closed n := by
  have hcfg : (F₀.replaceReads a (.arg k)).cfg = F₀.cfg := Func.replaceReads_cfg _
  have hblocks : (F₀.replaceReads a (.arg k)).blocks = F₀.blocks := (handOver_cfg F₀).2.1
  have hbody : ∀ b, ∀ K ∈ (F₀.replaceReads a (.arg k)).body b, ∃ I ∈ F₀.body b,
      K = I.substUses (F₀.ctaidReads a) (.arg k) := by
    intro b K hK
    have heq : (F₀.replaceReads a (.arg k)).body b = _ :=
      handOver_body (fun w hw => by cases hw) F₀ b
    rw [heq] at hK
    obtain ⟨I, hI, -, rfl⟩ := mem_handedOver hK
    exact ⟨I, hI, rfl⟩
  have hsubst : ∀ x : Operand, x.All (· < n) →
      (x.subst (F₀.ctaidReads a) (.arg k)).All (· < n) := by
    intro x hx
    cases x with
    | inst v =>
        show Operand.All _ (if _ then _ else _)
        split_ifs
        · trivial
        · exact hx
    | _ => trivial
  refine ⟨?_, ?_, fun b K hK => ?_, fun b K hK y hy => ?_, fun b K hK q hq => ?_⟩
  · rw [hcfg, hblocks]
    exact h.entry_mem
  · rw [hcfg, hblocks]
    exact h.succ_mem
  · obtain ⟨I, hI, rfl⟩ := hbody b K hK
    exact h.id_lt b I hI
  · obtain ⟨I, hI, rfl⟩ := hbody b K hK
    obtain ⟨x, hx, rfl⟩ := List.mem_map.1 hy
    exact hsubst x (h.args_lt b I hI x hx)
  · obtain ⟨I, hI, rfl⟩ := hbody b K hK
    obtain ⟨r, hr, rfl⟩ := List.mem_map.1 hq
    obtain ⟨hmem, hall⟩ := h.incoming_lt b I hI r hr
    exact ⟨hblocks.symm ▸ hmem, hsubst r.2 hall⟩

end

/-! ## One kernel -/

/-- A function in SSA form has a place to weave at. -/
theorem Weaver.run_woven {W : Weaver} {F : Func} (hF : F.WellFormed) : (W.run.run F).1 = true := by
  obtain ⟨IP, hIP⟩ := Weaver.exists_insertionPoint (W := W) hF
  suffices Ends W.run F fun woven _ => woven = true from this
  refine Ends.bind (Q := fun G _ => G = F) rfl fun G F' hG => ?_
  obtain rfl := hG
  simp only [hIP]
  rfl

theorem Weaver.weaveFn_func {W : Weaver} {F : Fn} (hF : F.code.func.WellFormed) :
    (W.weaveFn F).code.func = ((W.into F).run.run F.code.func).2 := by
  unfold weaveFn
  dsimp only
  rw [if_pos (run_woven hF)]

section

variable {V E H : Type} {D D' : String → Option Code} {J : Meaning V E} {hw : Coords} {P P' : Code}
  {ctaid : Dim3} {args : ℕ → V} {k : ℕ}

/-- What code does does not depend on its number of parameters. -/
theorem run_arity (n : ℕ) (vals : ℕ → V) (prev : Option ℕ) (b : ℕ) (h : List E) :
    run D J hw n ⟨{ P with arity := k }, ctaid, args⟩ vals prev b h
      = run D J hw n ⟨P, ctaid, args⟩ vals prev b h := by
  have hblock : ∀ call (vals₀ : ℕ → V) prev b l vals h,
      runBlock D J hw call ⟨{ P with arity := k }, ctaid, args⟩ vals₀ prev b l vals h
        = runBlock D J hw call ⟨P, ctaid, args⟩ vals₀ prev b l vals h := by
    intro call vals₀ prev b l
    induction l with
    | nil => intro vals h; rfl
    | cons I rest ih =>
        intro vals h
        by_cases hphi : I.op = .phi
        · rw [runBlock_phi hphi, runBlock_phi hphi, ih]
          rfl
        · by_cases hterm : I.op = .terminator
          · rw [runBlock_terminator hterm, runBlock_terminator hterm]
            rfl
          · rw [runBlock_value hphi hterm, runBlock_value hphi hterm]
            simp only [ih]
            rfl
  induction n generalizing vals prev b h with
  | zero => rfl
  | succ n ih =>
      simp only [run, hblock, ih]

variable {N : String → ℕ} {a : Axis} {p t : ℕ}

/-- **A remapped function does what the block of its task does.** -/
theorem Weaver.Remapped.exists_run (h : Weaver.Remapped P.func P'.func a p t) (hname : P'.name = P.name)
    (hF₀ : P.func.WellFormed) (hvalid : P.func.Valid) (hphis : P.func.PhisName)
    (hentry : ∀ b ∈ P.func.blocks, P.func.cfg.entry ∉ P.func.cfg.succ b)
    (hN : N P.name = P.func.next) {R₀ : ℕ}
    (hD : ∀ g, Option.Rel (InstrumentsCode N R₀) (D g) (D' g)) :
    ∃ R, ∀ {V E H : Type} (J : Meaning V E) (X : Probes V E H) (hw : Coords) (ctaid : Dim3)
      (args : ℕ → V), ∃ T, ∀ task, J.ofNat task = T → ∀ n,
        CutShort (runFrame D J hw n ⟨P, ctaid.set a task, args⟩)
            (Observed.erase Sum.getLeft? (runFrame D' (J.instrumented N X) hw (n * (R + 1))
              ⟨P', ctaid, args⟩)) ∧
          CutShort (Observed.erase Sum.getLeft? (runFrame D' (J.instrumented N X) hw n
              ⟨P', ctaid, args⟩))
            (runFrame D J hw (n + 1) ⟨P, ctaid.set a task, args⟩) := by
  obtain ⟨k₀, hk₀⟩ := hF₀.exists_argsBelow
  obtain ⟨k₁, hk₁⟩ := (h.edited 0).wellFormed.exists_argsBelow
  obtain ⟨k, hk, hk'⟩ : ∃ k, P.func.ArgsBelow k ∧ P'.func.ArgsBelow k :=
    ⟨max k₀ k₁, hk₀ _ (le_max_left ..), hk₁ _ (le_max_right ..)⟩
  obtain ⟨L, rank, honce⟩ := h.computedOnce hF₀ hentry
  obtain ⟨S, R₁, hS, hR₁, -⟩ := (h.edited k).instruments
  let Q : Code := { P with arity := k }
  have hQ : Q.WellFormed := ⟨hF₀, hvalid, hk⟩
  have hcode : InstrumentsCode N (max R₀ R₁) { Q.replaceReads a with arity := k }
      { P' with func := P'.func.asArgument P.func.next [p] k } := by
    refine ⟨S, hname, ?_, ?_, fun b => (hR₁ b).trans (le_max_right ..)⟩
    · show (P.func.replaceReads a (.arg k)).Closed (N P.name)
      rw [hN]
      exact (closed_of_valid hF₀ hvalid hphis).replaceReads
    · show Instruments (P.func.replaceReads a (.arg k)) (P'.func.asArgument P.func.next [p] k)
        (N P.name) S
      rw [hN]
      exact hS
  refine ⟨max R₀ R₁, fun {V E H} J X hw ctaid args => ?_⟩
  obtain ⟨T, hT⟩ : ∃ T, ∀ m, runFrame D' (J.instrumented N X) hw m
      (argumentFrame P' P.func.next p k ctaid args T)
        = runFrame D' (J.instrumented N X) hw m ⟨P', ctaid, args⟩ :=
    exists_runFrame_asArgument (h.edited 0).wellFormed (h.edited 0).valid hk' honce
  refine ⟨T, fun task htask n => ?_⟩
  have hreads : ∀ n, runFrame D J hw n (replacedFrame Q a k ctaid args T)
      = runFrame D J hw n ⟨P, ctaid.set a task, args⟩ := fun n =>
    (runFrame_replaceReads hQ (fun c hc => (Dim3.get_set_ne ctaid task hc).symm)
      (by rw [Dim3.get_set, htask]) n).trans (run_arity n ..)
  have hdevice : ∀ g, Option.Rel (InstrumentsCode N (max R₀ R₁)) (D g) (D' g) := by
    intro g
    have hg := hD g
    revert hg
    generalize D g = Q, D' g = Q'
    rintro (hg | -)
    · exact .some (hg.mono (le_max_left ..))
    · exact .none
  rw [← hreads, ← hreads, ← hT, ← hT]
  exact run_instrumented hdevice hcode ctaid (Function.update args k T) n

end

/-! ## Woven modules -/

/-- The shed masks are not woven into the function. -/
def Weaver.Keeps (W : Weaver) (F : Fn) : Prop :=
  (W.into F).sheds ((W.into F).sites F.code.func) = false

/-- A woven device function is a task body, and its task is an argument. -/
theorem Weaver.Keeps.onlyHints {W : Weaver} {F : Fn} (h : W.Keeps F) (hkernel : F.kernel = false)
    (hwoven : F.woven = true) : W.OnlyHints F := by
  have hbody : F.taskBody = true := by simpa [Fn.woven, hkernel] using (Bool.and_eq_true_iff.1 hwoven).1
  exact ⟨by simp [Weaver.remaps, Weaver.into, hbody], h⟩

/-- A kernel that the indirection is woven into: the entry is entered once, and no read of the slot axis
    is the address of an asynchronous copy. -/
structure Weaver.Redirects (W : Weaver) (K : Fn) : Prop where
  woven : K.woven = true
  remaps : (W.into K).remaps = true
  entry : ∀ b ∈ K.code.func.blocks, K.code.func.cfg.entry ∉ K.code.func.cfg.succ b
  copies : ∀ A ∈ (W.into K).copies K.code.func,
    A.Gmem.All (· ∉ K.code.func.ctaidReads (axisOf W.C.slotAxis))

section

variable (W : String → Weaver) (M : Module) (fns : List String) (hfinite : ∀ g, g ∉ fns → M g = none)
  (hM : ∀ g F, M g = some F → F.Ssa) (N : String → ℕ)
  (hN : ∀ g F, M g = some F → N F.code.name = F.code.func.next)
  (hW : ∀ g F, M g = some F → F.woven = true → (W g).Keeps F)

include hfinite hM hN hW

/-- **A woven kernel does the work of one block.** Where the task indirection is woven and the shed masks
    are not, the woven kernel is valid SSA, and whatever the new instructions do, each run of it has one
    task: it makes the accesses of a run of the kernel in which the kernel's own reads of the slot axis
    give the task and everything else sees the block, in the same order, and returns the same value. -/
theorem SchedWeavePass.run_indirect {g : String} {K K' : Fn} (hK : M g = some K)
    (hredirects : (W g).Redirects K) (hK' : run W M g = some K') :
    K'.code.func.WellFormed ∧ K'.code.func.Valid ∧ ∃ R, ∀ {V E H : Type} (J : Meaning V E)
      (X : Probes V E H) (hw : Coords) (ctaid : Dim3) (args : ℕ → V), ∃ T, ∀ task, J.ofNat task = T →
        ∀ n, CutShort
            (runFrame M.device J hw n ⟨K.code, ctaid.set (axisOf (W g).C.slotAxis) task, args⟩)
            (Observed.erase Sum.getLeft? (runFrame (run W M).device (J.instrumented N X) hw
              (n * (R + 1)) ⟨K'.code, ctaid, args⟩)) ∧
          CutShort (Observed.erase Sum.getLeft? (runFrame (run W M).device (J.instrumented N X) hw n
              ⟨K'.code, ctaid, args⟩))
            (runFrame M.device J hw (n + 1)
              ⟨K.code, ctaid.set (axisOf (W g).C.slotAxis) task, args⟩) := by
  obtain ⟨R, hR⟩ := exists_instrumentsCode W M fns hfinite hM N hN
  obtain ⟨hF, hvalid, hphis⟩ := hM g K hK
  obtain rfl : (W g).weaveFn K = K' := by
    have hrun := run_eq W M hK
    rw [if_pos hredirects.woven, hK'] at hrun
    exact (Option.some_inj.1 hrun).symm
  obtain ⟨p, t, h⟩ := Weaver.remapped_run hF hvalid hphis hredirects.remaps
    (hW g K hK hredirects.woven) hredirects.copies
  rw [← Weaver.weaveFn_func hF] at h
  refine ⟨(h.edited 0).wellFormed, (h.edited 0).valid, ?_⟩
  exact h.exists_run Weaver.weaveFn_name hF hvalid hphis hredirects.entry (hN g K hK)
    (device_instrumentsCode W M N (fun f F hf hk hw => (hW f F hf hw).onlyHints hk hw) hR)

end

/-- The weaver that also redirects the kernel that gathers pages. -/
def gatherRedirector : Weaver :=
  { gatherWeaver with
    C := { gatherWeaver.C with indirect := true }
    R := { gatherWeaver.R with taskOrder := { bakedAddr := 128 } } }

theorem run_indirect_gather : ∃ R K', SchedWeavePass.run (fun _ => gatherRedirector) gatherModule
      "paged" = some K' ∧ K'.code.func.WellFormed ∧ K'.code.func.Valid ∧
    ∀ {E H : Type} (J : Meaning ℕ E) (X : Probes ℕ E H) (hw : Coords) (ctaid : Dim3) (args : ℕ → ℕ),
      J.ofNat = id → ∃ task, ∀ n,
        CutShort (runFrame gatherModule.device J hw n ⟨WeaveAnalyses.pagedGather,
              ctaid.set (axisOf gatherRedirector.C.slotAxis) task, args⟩)
            (Observed.erase Sum.getLeft? (runFrame (SchedWeavePass.run (fun _ => gatherRedirector)
              gatherModule).device (J.instrumented (fun _ => 14) X) hw (n * (R + 1))
                ⟨K'.code, ctaid, args⟩)) ∧
          CutShort (Observed.erase Sum.getLeft? (runFrame (SchedWeavePass.run
              (fun _ => gatherRedirector) gatherModule).device (J.instrumented (fun _ => 14) X) hw n
                ⟨K'.code, ctaid, args⟩))
            (runFrame gatherModule.device J hw (n + 1) ⟨WeaveAnalyses.pagedGather,
              ctaid.set (axisOf gatherRedirector.C.slotAxis) task, args⟩) := by
  obtain ⟨K', hK'⟩ : ∃ K', SchedWeavePass.run (fun _ => gatherRedirector) gatherModule "paged"
      = some K' := ⟨_, rfl⟩
  obtain ⟨hwf', hvalid', R, hR⟩ := SchedWeavePass.run_indirect (fun _ => gatherRedirector) gatherModule
    ["paged"] (fun g hg => if_neg (by simpa using hg)) (fun g F hF => gatherModule_ssa hF) (fun _ => 14)
    (fun g F hF => gatherModule_eq hF ▸ rfl) (fun g F _ _ => rfl) rfl
    ⟨rfl, rfl, by decide +kernel, by decide +kernel⟩ hK'
  refine ⟨R, K', hK', hwf', hvalid', fun J X hw ctaid args hJ => ?_⟩
  obtain ⟨T, hT⟩ := hR J X hw ctaid args
  exact ⟨T, hT T (hJ ▸ rfl)⟩

end SchedPass
