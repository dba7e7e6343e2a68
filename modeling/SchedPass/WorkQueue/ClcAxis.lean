import SchedPass.WorkQueue.Launches

set_option autoImplicit false

/-! # The slot axis of the CLC claim

The driver takes its first raw id from the configured slot axis; the CLC claim always takes
component `x` of the cancelled block. On another axis every cancelled block decodes to raw id 0, so a
cancelled block's own task is lost (`Lost`). A run that loses one exists as soon as the grid has a
second block: one CTA runs to its first claim while the other block is still pending
(`CtaOk.exists_claiming`). -/

namespace SchedPass

variable {L : Launch} {n q : ℕ}

/-! ## Lost raw ids -/

/-- Raw id `r` is offered by no pending block and has not been offered to any CTA. -/
structure Lost (L : Launch) (r : ℕ) (s : Grid) : Prop where
  pending : ∀ b ∈ s.pending, L.first b ≠ r
  ctas : ∀ b c, s.cta b = some c → r ∉ c.raws L b

theorem Lost.setCta {r : ℕ} {s : Grid} (h : Lost L r s) {b : Dim3} {c : Cta}
    (hc : r ∉ c.raws L b) {p : Finset Dim3} (hp : p ⊆ s.pending) (queue issued : ℕ) :
    Lost L r ({ s with pending := p, queue := queue, issued := issued }.setCta b c) where
  pending := fun b' hb' => h.pending b' (hp hb')
  ctas := by
    intro b' d hd
    by_cases hb : b' = b
    · subst hb
      rw [Grid.setCta_self] at hd
      cases hd
      exact hc
    · rw [Grid.setCta_ne _ c hb] at hd
      exact h.ctas b' d hd

theorem Cta.notMem_raws_store {r : ℕ} {b : Dim3} {c : Cta} (h : r ∉ c.raws L b) {v : ℕ}
    (hv : v ≠ r) : r ∉ (c.store v).raws L b := by
  simp only [Cta.raws, Cta.store_claims, List.mem_cons, List.mem_append, List.mem_nil_iff,
    or_false, not_or] at h ⊢
  exact ⟨h.1, h.2, hv.symm⟩

/-- A raw id that no claim decodes to stays lost. -/
theorem Lost.step (hmode : L.useCLC = true) {r : ℕ} (hdec : ∀ v ∈ L.blocks, v.x ≠ r)
    (hr : r < L.ntasks) {s s' : Grid} (hok : GridOk L n s) (h : Lost L r s)
    (hstep : Step L s s') : Lost L r s' := by
  cases hstep with
  | @launch b hb =>
      have hfirst : r ∉ Cta.raws L b {} := by
        simpa [Cta.raws] using (h.pending b hb).symm
      exact h.setCta hfirst (Finset.erase_subset _ _) _ _
  | @cta b c c' hc hcta =>
      have hraws : c'.raws L b = c.raws L b := by rw [Cta.raws, Cta.raws, hcta.claims_eq]
      exact h.setCta (hraws ▸ h.ctas b c hc) (Finset.Subset.refl _) _ _
  | ticket hticket => exact absurd (hticket.symm.trans hmode) (by decide)
  | @cancel b v c _ hc hpc hv =>
      refine h.setCta ?_ (Finset.erase_subset _ _) _ _
      exact Cta.notMem_raws_store (h.ctas b c hc) (hdec v (hok.pending_sub hv))
  | @cancelFail b c _ hc hpc =>
      refine h.setCta ?_ (Finset.Subset.refl _) _ _
      exact Cta.notMem_raws_store (h.ctas b c hc) hr.ne'

/-- The task of a lost raw id is never run. -/
theorem Lost.task_notMem {r g : ℕ} {s : Grid} (h : Lost L r s) (hok : GridOk L n s)
    (hterm : Terminated L s) (hperm : PermutesBelow L.task n) (hr : r < n) {t : ℕ}
    (ht : t < L.threads) (hg : n ≤ g) : s.tasks L t ≠ Multiset.range g := by
  intro hall
  have hmem : L.task r ∈ s.tasks L t := by
    rw [hall, Multiset.mem_range]
    exact (hperm.lt hr).trans_le hg
  rw [tasks_eq_map, Multiset.mem_map] at hmem
  obtain ⟨raw, hraw, htask⟩ := hmem
  obtain ⟨b, -, hlog⟩ := Multiset.mem_sum.1 hraw
  unfold Grid.log at hlog
  cases hc : s.cta b with
  | none => simp [hc] at hlog
  | some c =>
      simp only [hc, Multiset.mem_coe] at hlog
      have hcta := hok.ctas b c hc
      rw [(hcta.exited ht (hterm.2 b c hc t ht)).1] at hlog
      have heq := hperm.inj (hcta.prior_lt raw hlog) hr htask
      exact h.ctas b c hc (heq ▸ (List.dropLast_prefix _).subset hlog)

/-! ## The axis condition -/

theorem LinearGrid.x_eq_zero (hgrid : LinearGrid L n) (haxis : L.C.slotAxis ≠ 0) {v : Dim3}
    (hv : v ∈ L.blocks) : v.x = 0 := by
  obtain ⟨i, -, rfl⟩ := hgrid.mem_blocks.1 hv
  rcases hgrid.axis with h | h | h
  · exact absurd h haxis
  · rw [h]
    rfl
  · rw [h]
    rfl

theorem decodesOwn_of_le_one (hgrid : LinearGrid L n) (hn : n ≤ 1) : DecodesOwn L := by
  intro _ v hv
  obtain ⟨i, hi, rfl⟩ := hgrid.mem_blocks.1 hv
  have hi0 : i = 0 := by omega
  subst hi0
  rw [Launch.first_along, clcClaim]
  cases axisOf L.C.slotAxis <;> rfl

/-- Block 0 runs to its claim and cancels block 1, which decodes to 0 off axis `x`: raw id 1 is
    lost. -/
theorem exists_lost_cancel (hL : ClaimLaunch L n) (hmode : L.useCLC = true)
    (hgrid : LinearGrid L n) (haxis : L.C.slotAxis ≠ 0) (hn : 2 ≤ n) :
    ∃ s, Reaches (Step L) (L.start q) s ∧ Lost L 1 s := by
  have hinj := Dim3.along_injective (axisOf L.C.slotAxis)
  have hmem : ∀ i < n, Dim3.along (axisOf L.C.slotAxis) i ∈ L.blocks := fun i hi =>
    hgrid.mem_blocks.2 ⟨i, hi, rfl⟩
  obtain ⟨b₀, hb₀⟩ : ∃ b, b = Dim3.along (axisOf L.C.slotAxis) 0 := ⟨_, rfl⟩
  obtain ⟨b₁, hb₁⟩ : ∃ b, b = Dim3.along (axisOf L.C.slotAxis) 1 := ⟨_, rfl⟩
  have hfirst : L.first b₀ = 0 := by rw [hb₀, Launch.first_along]
  have hb₀mem : b₀ ∈ L.blocks := hb₀ ▸ hmem 0 (by omega)
  have hb₁mem : b₁ ∈ L.blocks.erase b₀ := by
    refine Finset.mem_erase.2 ⟨?_, hb₁ ▸ hmem 1 (by omega)⟩
    rw [hb₀, hb₁]
    exact fun h => absurd (hinj h) (by decide)
  have hcur : Cta.current L b₀ {} < n := by
    rw [Cta.current_of_fresh rfl]
    omega
  obtain ⟨c, hrun, hpc, hclaims⟩ := CtaOk.fresh.exists_claiming hL hcur
  obtain ⟨s₁, hs₁⟩ : ∃ s, s = { L.start q with pending := L.blocks.erase b₀ } := ⟨_, rfl⟩
  have hpend : s₁.pending = L.blocks.erase b₀ := by rw [hs₁]
  have hreach : Reaches (Step L) (L.start q) (s₁.setCta b₀ c) := by
    have hlaunch : Step L (L.start q) (s₁.setCta b₀ {}) := by
      rw [hs₁]
      exact .launch hb₀mem
    exact (Reaches.setCta hrun s₁).head hlaunch
  have hcancel := Step.cancel (s := s₁.setCta b₀ c) hmode (Grid.setCta_self s₁ b₀ c) hpc
    (hpend.symm ▸ hb₁mem)
  have hx : clcClaim L.ntasks (some b₁) = 0 := hgrid.x_eq_zero haxis (Finset.mem_of_mem_erase hb₁mem)
  refine ⟨_, hreach.tail hcancel, ?_, ?_⟩
  · intro b hb
    rw [Grid.setCta_pending] at hb
    obtain ⟨hbne, hb⟩ := Finset.mem_erase.1 hb
    rw [Grid.setCta_pending, hpend] at hb
    obtain ⟨i, -, rfl⟩ := hgrid.mem_blocks.1 (Finset.mem_of_mem_erase hb)
    rw [Launch.first_along]
    rintro rfl
    exact hbne hb₁.symm
  · intro b d hd
    by_cases hbb : b = b₀
    · subst hbb
      rw [Grid.setCta_self] at hd
      cases hd
      simp [Cta.raws, hfirst, hclaims, hx]
    · rw [Grid.setCta_ne _ _ hbb, Grid.setCta_ne _ _ hbb, hs₁] at hd
      exact absurd hd (by simp [Launch.start])

/-- **A lost task**: with at least two blocks on another axis than `x`, some run cancels block 1 and
    ends without having run block 1's task. -/
theorem exists_lost_run (hL : ClaimLaunch L n) (hmode : L.useCLC = true) (hgrid : LinearGrid L n)
    (haxis : L.C.slotAxis ≠ 0) (hn : 2 ≤ n) :
    ∃ s, Reaches (Step L) (L.start q) s ∧ Terminated L s ∧ GridOk L n s ∧ Lost L 1 s := by
  have hne : L.useCLC ≠ false := by simp [hmode]
  have hB : BoundedClaims L n q := ⟨hL, fun hf => absurd hf hne⟩
  obtain ⟨s₁, hreach, hlost⟩ := exists_lost_cancel (q := q) hL hmode hgrid haxis hn
  have hok := ClaimsOk.reaches hB (fun hf => absurd hf hne) hreach
  obtain ⟨s₂, hs₂, hterm⟩ := exists_terminated hB hok
  have hlost₂ : GridOk L n s₂ ∧ Lost L 1 s₂ := by
    refine hs₂.invariant (I := fun s => GridOk L n s ∧ Lost L 1 s) (fun s s' hI hs => ?_)
      ⟨hok.grid, hlost⟩
    refine ⟨hI.1.step hL hs, hI.2.step hmode (fun v hv => ?_) ?_ hI.1 hs⟩
    · rw [hgrid.x_eq_zero haxis hv]
      decide
    · rw [hL.ntasks_eq]
      omega
  exact ⟨s₂, hreach.trans hs₂, hterm, hlost₂⟩

/-- **The CLC claim is exactly once on axis `x` only.** For a grid of `n` blocks along the slot axis
    and `num_tasks` = `n`, every run executes each task once if and only if the slot axis is `x` or
    there is at most one block. -/
theorem clcLaunch_exactlyOnce_iff_axis (L : Launch) (n q : ℕ) (hmode : L.useCLC = true)
    (hctrl : L.R.ctrl.Armed) (hgrid : LinearGrid L n)
    (hn : loadNumTasks L.mem L.R.ctrl.base = n) (hpos : 0 < n) (hmax : n ≤ L.C.maxTasks)
    (hsz : loadOrderSize L.mem L.R.ctrl.base = 0 ∨ loadOrderSize L.mem L.R.ctrl.base = n)
    (hperm : PermutesBelow (tableWord L.mem L.R.taskOrder.base) n) :
    RunsExactlyOnce L (L.start q) n ↔ L.C.slotAxis = 0 ∨ n ≤ 1 := by
  have harmed : ClaimArmed L.useCLC L.R := ⟨hctrl, fun hf => by simp [hmode] at hf⟩
  have hL : ClaimLaunch L n := ⟨harmed, hgrid.shape, hn, hpos⟩
  have htask := Launch.task_permutesBelow hL hmax hsz hperm
  constructor
  · intro h
    by_contra hcond
    rw [not_or, not_le] at hcond
    obtain ⟨s, hs, hterm, hok, hlost⟩ := exists_lost_run (q := q) hL hmode hgrid hcond.1 hcond.2
    exact hlost.task_notMem hok hterm htask hcond.2 L.threads_pos le_rfl
      (h.exact s hs hterm 0 L.threads_pos)
  · intro hcond
    have hdec : DecodesOwn L := by
      rcases hcond with haxis | hle
      · exact decodesOwn_of_axis haxis
      · exact decodesOwn_of_le_one hgrid hle
    rw [clc_runsExactlyOnce_iff hL hmode hdec hgrid]
    exact ⟨le_rfl, htask⟩

theorem clcLaunch_exactlyOnce_iff_axis_x :
    RunsExactlyOnce (launchX true [1, 0] 2 2) ((launchX true [1, 0] 2 2).start 0) 2 :=
  (clcLaunch_exactlyOnce_iff_axis (launchX true [1, 0] 2 2) 2 0 rfl (by decide)
    (launchX_linearGrid ..) (by decide) (by decide) (by decide) (by decide) (by decide)).2
    (Or.inl rfl)

/-- Two blocks along axis `y`, with the slot axis set to `y`. -/
def launchY : Launch := { launchX true [1, 0] 2 2 with C := { slotAxis := 1 }, nctaid := ⟨1, 2, 1⟩ }

/-- Block 0 cancels block 1, which decodes to raw id 0: one run of `launchY` ends with task 0 unrun
    (block 1's entry in the table `[1, 0]`). -/
theorem clcLaunch_axis_y_loses_task :
    LinearGrid launchY 2 ∧ launchY.R.ctrl.Armed ∧
      loadNumTasks launchY.mem launchY.R.ctrl.base = 2 ∧
      loadOrderSize launchY.mem launchY.R.ctrl.base = 2 ∧
      PermutesBelow (tableWord launchY.mem launchY.R.taskOrder.base) 2 ∧
      ∃ s, Reaches (Step launchY) (launchY.start 0) s ∧ Terminated launchY s ∧
        s.tasks launchY 0 ≠ Multiset.range 2 := by
  have hgrid : LinearGrid launchY 2 := ⟨Or.inr (Or.inl rfl), ⟨rfl, rfl⟩, rfl⟩
  have hperm : PermutesBelow (tableWord launchY.mem launchY.R.taskOrder.base) 2 := by decide
  have hL : ClaimLaunch launchY 2 := ⟨by decide, hgrid.shape, by decide, by decide⟩
  obtain ⟨s, hs, hterm, hok, hlost⟩ :=
    exists_lost_run (q := 0) hL rfl hgrid (by decide) le_rfl
  refine ⟨hgrid, by decide, by decide, by decide, hperm, s, hs, hterm, ?_⟩
  exact hlost.task_notMem hok hterm (Launch.task_permutesBelow hL (by decide) (by decide) hperm)
    (by decide) launchY.threads_pos le_rfl

end SchedPass
