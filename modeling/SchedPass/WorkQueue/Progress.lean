import SchedPass.WorkQueue.Exactly

set_option autoImplicit false

/-! # Every run of a driver launch ends

The measure counts what is still to be done: each untaken ticket, pending block and CTA that has not
failed a claim pays for one round of all threads, and the threads of a CTA count down to their next
barrier (`Grid.measure_step`). A launch that has not terminated can always step
(`exists_step`), so it can be run to the end. -/

namespace SchedPass

variable {L : Launch} {n q : ℕ}

/-! ## The measure -/

/-- How far a thread is from its next barrier. -/
def Pc.work : Pc → ℕ
  | .entry => 4
  | .read => 3
  | .loop _ => 2
  | .bar1 | .stock _ => 1
  | .claim | .bar2 | .exited => 0

/-- How far a CTA is from its next claim; at the second barrier a whole round lies ahead. -/
def Cta.work (L : Launch) (c : Cta) : ℕ :=
  ∑ t ∈ Finset.range L.threads, (c.thread t).pc.work
    + if (c.thread 0).pc = .bar2 then 4 * L.threads else 0

/-- A CTA can make one failing claim. -/
def potentialAt (L : Launch) (n : ℕ) : Option Cta → ℕ
  | some c => c.work L + if c.failed n then 0 else 8 * L.threads
  | none => 0

def ticketCount (L : Launch) (n q issued : ℕ) : ℕ := if L.useCLC then 0 else n - (q + issued)

def Grid.measure (L : Launch) (n q : ℕ) (s : Grid) : ℕ :=
  8 * L.threads * (ticketCount L n q s.issued + 2 * s.pending.card)
    + ∑ b ∈ L.blocks, potentialAt L n (s.cta b)

/-! ## A CTA's own steps -/

theorem Thread.advance_work {b : Dim3} {shared : ℕ} {th th' : Thread}
    (h : th.advance L b shared = some th') :
    th'.pc.work < th.pc.work ∧ th.pc ≠ .bar2 ∧ th'.pc ≠ .bar2 := by
  unfold Thread.advance at h
  split at h
  · next hpc =>
      rw [hpc]
      split at h <;> cases h <;> simp [Pc.work]
  · next hpc =>
      rw [hpc]
      cases h
      simp [Pc.work]
  · next hpc =>
      rw [hpc]
      cases h
      simp [Pc.work]
  · next hpc =>
      rw [hpc]
      cases h
      dsimp only
      split <;> simp [Pc.work]
  all_goals exact absurd h (by simp)

theorem Cta.work_setThread {b : Dim3} {c : Cta} {t : ℕ} {th : Thread} (ht : t < L.threads)
    (hadv : (c.thread t).advance L b c.shared = some th) : (c.setThread t th).work L < c.work L := by
  obtain ⟨hlt, hne, hne'⟩ := Thread.advance_work hadv
  have hsum : ∑ u ∈ Finset.range L.threads, ((c.setThread t th).thread u).pc.work
      < ∑ u ∈ Finset.range L.threads, (c.thread u).pc.work := by
    refine Finset.sum_lt_sum (fun u _ => ?_) ⟨t, Finset.mem_range.2 ht, ?_⟩
    · by_cases hut : u = t
      · subst hut
        rw [Cta.setThread_self]
        exact hlt.le
      · rw [Cta.setThread_ne c th hut]
    · rw [Cta.setThread_self]
      exact hlt
  have hbonus : ((c.setThread t th).thread 0).pc = .bar2 ↔ (c.thread 0).pc = .bar2 := by
    by_cases ht0 : t = 0
    · subst ht0
      rw [Cta.setThread_self]
      exact iff_of_false hne' hne
    · rw [Cta.setThread_ne c th (Ne.symm ht0)]
  simp only [Cta.work, hbonus]
  omega

/-- While a body is served, the threads that wait do so at the first barrier. -/
theorem Serving.bar1_of_waiting {b : Dim3} {c : Cta} {th : Thread} (h : Serving L n b c th)
    (hw : th.pc.waiting = true) : th.pc = .bar1 := by
  cases h with
  | bar1 => rfl
  | _ => exact absurd hw (by simp [Pc.waiting])

/-- The first barrier lets its threads go on to the claim or the second barrier. -/
theorem Cta.work_releaseAll_bar1 {c : Cta}
    (hpc : ∀ t < L.threads, (c.thread t).pc = .bar1 ∨ (c.thread t).pc = .exited)
    (hsome : ∃ t < L.threads, (c.thread t).pc = .bar1) : c.releaseAll.work L < c.work L := by
  have hrel : ∀ t < L.threads, ((c.thread t).release t).pc.work = 0 := by
    intro t ht
    rcases hpc t ht with hp | hp
    · simp only [Thread.release, hp]
      split <;> rfl
    · simp [Thread.release, hp, Pc.work]
  have hnew : (c.releaseAll.thread 0).pc ≠ .bar2 := by
    rcases hpc 0 L.threads_pos with hp | hp <;> simp [Thread.release, hp]
  have hold : (c.thread 0).pc ≠ .bar2 := by
    rcases hpc 0 L.threads_pos with hp | hp <;> simp [hp]
  obtain ⟨t, ht, hbar⟩ := hsome
  have hlt : ∑ u ∈ Finset.range L.threads, (c.releaseAll.thread u).pc.work
      < ∑ u ∈ Finset.range L.threads, (c.thread u).pc.work := by
    refine Finset.sum_lt_sum (fun u hu => ?_) ⟨t, Finset.mem_range.2 ht, ?_⟩
    · rw [Cta.releaseAll_thread, hrel u (Finset.mem_range.1 hu)]
      exact Nat.zero_le _
    · rw [Cta.releaseAll_thread, hrel t ht, hbar]
      exact Nat.one_pos
  simp only [Cta.work, if_neg hnew, if_neg hold]
  omega

/-- The second barrier spends the round that lay ahead. -/
theorem Cta.work_releaseAll_bar2 {c : Cta} {l : List ℕ}
    (hbar2 : ∀ t < L.threads, c.thread t = ⟨.bar2, l⟩) : c.releaseAll.work L < c.work L := by
  have hpos := L.threads_pos
  have hnew : (c.releaseAll.thread 0).pc ≠ .bar2 := by
    rw [Cta.releaseAll_thread, hbar2 0 hpos]
    simp [Thread.release]
  have hold : (c.thread 0).pc = .bar2 := by rw [hbar2 0 hpos]
  have hread : ∑ u ∈ Finset.range L.threads, (c.releaseAll.thread u).pc.work
      = 3 * L.threads := by
    rw [Finset.sum_congr rfl fun u hu => by
      rw [Cta.releaseAll_thread, hbar2 u (Finset.mem_range.1 hu)]]
    simp [Thread.release, Pc.work, Nat.mul_comm]
  simp only [Cta.work, if_neg hnew, if_pos hold, hread]
  omega

theorem CtaOk.work_step {b : Dim3} {c c' : Cta} (h : CtaOk L n b c)
    (hstep : CtaStep L b c c') : c'.work L < c.work L := by
  cases hstep with
  | thread ht hadv => exact Cta.work_setThread ht hadv
  | barrier hsome hall =>
      cases h.phase with
      | serving hserv =>
          refine Cta.work_releaseAll_bar1 (fun t ht => ?_) ?_
          · exact (hall t ht).imp_left (hserv t ht).bar1_of_waiting
          · obtain ⟨t, ht, hw⟩ := hsome
            exact ⟨t, ht, (hserv t ht).bar1_of_waiting hw⟩
      | claiming _ hclaim =>
          have hw := hall 0 L.threads_pos
          rw [hclaim 0 L.threads_pos] at hw
          exact absurd hw (by simp [claimingThread, Pc.waiting])
      | claimed _ hbar2 => exact Cta.work_releaseAll_bar2 hbar2

theorem Cta.work_fresh : Cta.work L {} = 4 * L.threads := by
  simp [Cta.work, Pc.work, Nat.mul_comm]

/-- After the claim one round lies ahead. -/
theorem CtaOk.work_store {b : Dim3} {c : Cta} (h : CtaOk L n b c)
    (hpc : (c.thread 0).pc = .claim) (v : ℕ) : (c.store v).work L = 4 * L.threads := by
  have hzero : ∑ t ∈ Finset.range L.threads, ((c.store v).thread t).pc.work = 0 := by
    refine Finset.sum_eq_zero fun t ht => ?_
    by_cases ht0 : t = 0
    · subst ht0
      rw [Cta.store_zero]
      rfl
    · rw [Cta.store_ne c v ht0, (h.claiming hpc).2 t (Finset.mem_range.1 ht)]
      simp [claimingThread, ht0, Pc.work]
  rw [Cta.work, hzero, Cta.store_zero]
  simp

/-! ## The measure decreases -/

/-- A claim is paid for by what it takes, or by being the CTA's failing claim. -/
theorem measure_claim {s : Grid} {b : Dim3} {c : Cta} (h : GridOk L n s) (hc : s.cta b = some c)
    (hpc : (c.thread 0).pc = .claim) (v : ℕ) {p : Finset Dim3} {queue issued : ℕ}
    (hle : ticketCount L n q issued + 2 * p.card ≤ ticketCount L n q s.issued + 2 * s.pending.card)
    (hlt : v < n →
      ticketCount L n q issued + 2 * p.card < ticketCount L n q s.issued + 2 * s.pending.card) :
    Grid.measure L n q ({ s with pending := p, queue := queue, issued := issued }.setCta b
      (c.store v)) < Grid.measure L n q s := by
  have hok := h.ctas b c hc
  have hpos := L.threads_pos
  obtain ⟨rest, hold, hnew⟩ :=
    sum_setCta (fun _ => potentialAt L n) s (h.launched b c hc).1 (c.store v)
  have hnew' : ∑ x ∈ L.blocks, potentialAt L n
      (({ s with pending := p, queue := queue, issued := issued }.setCta b (c.store v)).cta x)
      = potentialAt L n (some (c.store v)) + rest := hnew
  simp only [Grid.measure, Grid.setCta_pending, Grid.setCta_issued]
  rw [hold, hnew', hc, potentialAt, potentialAt, hok.work_store hpc, hok.not_failed hpc,
    Cta.failed_store (hok.not_failed hpc)]
  simp only [decide_eq_true_eq, Bool.false_eq_true, if_false]
  by_cases hv : n ≤ v
  · rw [if_pos hv]
    have := Nat.mul_le_mul_left (8 * L.threads) hle
    omega
  · rw [if_neg hv]
    have := Nat.mul_le_mul_left (8 * L.threads) (Nat.succ_le_of_lt (hlt (not_le.1 hv)))
    rw [Nat.mul_succ] at this
    omega

/-- **Every step of a launch decreases the measure.** -/
theorem Grid.measure_step (hB : BoundedClaims L n q) {s s' : Grid} (h : ClaimsOk L n q s)
    (hstep : Step L s s') : Grid.measure L n q s' < Grid.measure L n q s := by
  have hpos := L.threads_pos
  cases hstep with
  | @launch b hb =>
      obtain ⟨rest, hold, hnew⟩ :=
        sum_setCta (fun _ => potentialAt L n) s (h.grid.pending_sub hb) {}
      have hnew' : ∑ x ∈ L.blocks, potentialAt L n
          (({ s with pending := s.pending.erase b }.setCta b {}).cta x)
          = potentialAt L n (some {}) + rest := hnew
      have hfresh : potentialAt L n (some {}) = 12 * L.threads := by
        have hf : Cta.failed n {} = false := rfl
        rw [potentialAt, Cta.work_fresh, hf, if_neg Bool.false_ne_true]
        omega
      -- the pending block pays for the CTA's first round and its failing claim
      have hcard := Finset.card_erase_add_one hb
      have hmul : 8 * L.threads * (ticketCount L n q s.issued + 2 * s.pending.card)
          = 8 * L.threads * (ticketCount L n q s.issued + 2 * (s.pending.erase b).card)
            + 16 * L.threads := by
        rw [← hcard]
        ring
      simp only [Grid.measure, Grid.setCta_pending, Grid.setCta_issued]
      rw [hold, hnew', hfresh, h.grid.cta_of_pending hb, potentialAt, hmul]
      omega
  | @cta b c c' hc hcta =>
      obtain ⟨rest, hold, hnew⟩ :=
        sum_setCta (fun _ => potentialAt L n) s (h.grid.launched b c hc).1 c'
      have hwork := (h.grid.ctas b c hc).work_step hcta
      have hfailed : c'.failed n = c.failed n := by rw [Cta.failed, Cta.failed, hcta.claims_eq]
      simp only [Grid.measure, Grid.setCta_pending, Grid.setCta_issued]
      rw [hold, hnew, hc, potentialAt, potentialAt, hfailed]
      omega
  | @ticket b c hmode hc hpc =>
      have hv := (h.tickets hmode).ticketClaim_eq h.grid (hB.capacity hmode) hc hpc
      refine measure_claim h.grid hc hpc _ ?_ ?_ <;>
        simp only [ticketCount, hmode, Bool.false_eq_true, if_false, hv] <;> omega
  | @cancel b v c _ hc hpc hv =>
      have hcard := Finset.card_erase_add_one hv
      exact measure_claim h.grid hc hpc _ (by omega) (fun _ => by omega)
  | @cancelFail b c _ hc hpc =>
      refine measure_claim h.grid hc hpc _ le_rfl fun hlt => ?_
      rw [clcClaim, hB.launch.ntasks_eq] at hlt
      exact absurd hlt (lt_irrefl n)

/-! ## Progress -/

/-- A CTA with a thread that has not returned can move, or is about to claim. -/
theorem CtaOk.exists_step {b : Dim3} {c : Cta} (h : CtaOk L n b c)
    (hlive : ∃ t < L.threads, (c.thread t).pc ≠ .exited) :
    (c.thread 0).pc = .claim ∨ ∃ c', CtaStep L b c c' := by
  obtain ⟨t₀, ht₀, hpc₀⟩ := hlive
  cases h.phase with
  | serving hserv =>
      right
      by_cases hadv : ∃ t < L.threads, ∃ th, (c.thread t).advance L b c.shared = some th
      · obtain ⟨t, ht, th, hth⟩ := hadv
        exact ⟨_, .thread ht hth⟩
      · -- no thread can move by itself: all are at the first barrier or have returned
        have hall : ∀ t < L.threads,
            (c.thread t).pc.waiting = true ∨ (c.thread t).pc = .exited := by
          intro t ht
          have hnone : ∀ th, (c.thread t).advance L b c.shared ≠ some th := fun th hth =>
            hadv ⟨t, ht, th, hth⟩
          have hs := hserv t ht
          generalize c.thread t = th at hs hnone
          cases hs with
          | bar1 => exact Or.inl rfl
          | exited => exact Or.inr rfl
          | entry =>
              unfold Thread.advance at hnone
              dsimp only at hnone
              split at hnone <;> exact absurd rfl (hnone _)
          | loop => exact absurd rfl (hnone _)
          | read => exact absurd rfl (hnone _)
        exact ⟨_, .barrier ⟨t₀, ht₀, (hall t₀ ht₀).resolve_right hpc₀⟩ hall⟩
  | claiming _ hclaim =>
      left
      rw [hclaim 0 L.threads_pos]
      rfl
  | claimed _ hbar2 =>
      right
      have hw : ∀ t < L.threads, (c.thread t).pc.waiting = true := by
        intro t ht
        rw [hbar2 t ht]
        rfl
      exact ⟨_, .barrier ⟨t₀, ht₀, hw t₀ ht₀⟩ fun t ht => Or.inl (hw t ht)⟩

theorem exists_step {s : Grid} (h : GridOk L n s) (hterm : ¬ Terminated L s) :
    ∃ s', Step L s s' := by
  by_cases hpend : s.pending = ∅
  · obtain ⟨b, c, hc, hlive⟩ : ∃ b c, s.cta b = some c ∧
        ∃ t < L.threads, (c.thread t).pc ≠ .exited := by
      by_contra hnone
      refine hterm ⟨hpend, fun b c hc t ht => ?_⟩
      by_contra hpc
      exact hnone ⟨b, c, hc, t, ht, hpc⟩
    rcases (h.ctas b c hc).exists_step hlive with hclaim | ⟨c', hc'⟩
    · cases hmode : L.useCLC with
      | true => exact ⟨_, .cancelFail hmode hc hclaim⟩
      | false => exact ⟨_, .ticket hmode hc hclaim⟩
    · exact ⟨_, .cta hc hc'⟩
  · obtain ⟨b, hb⟩ := Finset.nonempty_iff_ne_empty.2 hpend
    exact ⟨_, .launch hb⟩

/-- From every state of a run the launch can be run to the end. -/
theorem exists_terminated (hB : BoundedClaims L n q) {s : Grid} (h : ClaimsOk L n q s) :
    ∃ s', Reaches (Step L) s s' ∧ Terminated L s' :=
  exists_final (fun _ _ hI hs => hI.step hB hs) (fun _ _ hI hs => Grid.measure_step hB hI hs)
    (fun _ hI hterm => exists_step hI.grid hterm) h

/-- **A launch runs exactly once whenever its terminated runs do.** -/
theorem runsExactlyOnce_iff (hB : BoundedClaims L n q) (hq : L.useCLC = false → q < 2 ^ 32)
    (g : ℕ) : RunsExactlyOnce L (L.start q) g ↔
      ∀ s, Reaches (Step L) (L.start q) s → Terminated L s → ExactlyOnce L g s := by
  constructor
  · exact fun h => h.exact
  · intro h
    refine ⟨?_, fun s hs hterm => exists_step (ClaimsOk.reaches hB hq hs).grid hterm, h⟩
    exact acc_of_measure (fun _ _ hI hs => hI.step hB hs)
      (fun _ _ hI hs => Grid.measure_step hB hI hs) (ClaimsOk.start hq)

/-! ## Running one CTA to its claim -/

theorem Grid.setCta_setCta (s : Grid) (b : Dim3) (c c' : Cta) :
    (s.setCta b c).setCta b c' = s.setCta b c' := by
  simp only [Grid.setCta, Function.update_idem]

/-- A CTA's own run, inside the launch. -/
theorem Reaches.setCta {b : Dim3} {c c' : Cta} (h : Reaches (CtaStep L b) c c') (s : Grid) :
    Reaches (Step L) (s.setCta b c) (s.setCta b c') := by
  induction h with
  | refl => exact .refl
  | @tail c₁ c₂ _ hlast ih =>
      have hstep := Step.cta (Grid.setCta_self s b c₁) hlast
      rw [Grid.setCta_setCta] at hstep
      exact ih.tail hstep

/-- A CTA whose latest offer is in range runs by itself up to its next claim. -/
theorem CtaOk.exists_claiming (hL : ClaimLaunch L n) {b : Dim3} {c : Cta} (h : CtaOk L n b c)
    (hlt : c.current L b < n) :
    ∃ c', Reaches (CtaStep L b) c c' ∧ (c'.thread 0).pc = .claim ∧ c'.claims = c.claims := by
  have hinv : ∀ d d', (CtaOk L n b d ∧ d.claims = c.claims) → CtaStep L b d d' →
      CtaOk L n b d' ∧ d'.claims = c.claims := fun d d' hI hs =>
    ⟨hI.1.step hL hs, hs.claims_eq.trans hI.2⟩
  have hfinal : ∃ c', Reaches (CtaStep L b) c c' ∧ (c'.thread 0).pc = .claim := by
    refine exists_final (I := fun d => CtaOk L n b d ∧ d.claims = c.claims) (μ := Cta.work L) hinv
      (fun d d' hI hs => hI.1.work_step hs) (fun d hI hclaim => ?_) ⟨h, rfl⟩
    have hlive : (d.thread 0).pc ≠ .exited := by
      intro hpc
      have hge := (hI.1.exited L.threads_pos hpc).2
      rw [Cta.current, hI.2, ← Cta.current] at hge
      omega
    exact (hI.1.exists_step ⟨0, L.threads_pos, hlive⟩).resolve_left hclaim
  obtain ⟨c', hrun, hpc⟩ := hfinal
  exact ⟨c', hrun, hpc, (hrun.invariant hinv ⟨h, rfl⟩).2⟩

end SchedPass
