import SchedPass.WorkQueue.Machine

set_option autoImplicit false

/-! # The threads of a CTA agree on every raw id

The claim is made by thread 0 alone and broadcast through the shared slot between two barriers. The
invariant `CtaOk` says where the threads of a CTA can be at the same time: all around the body of
the current raw id, or all past it with thread 0 about to claim, or all at the second barrier with
the claimed value in the shared slot. So every thread runs the same raw ids in the same order, no
thread reads the slot before it is written or after it is overwritten, and the single hardware
barrier never releases threads that wait at different calls.

The statements are for a launch whose entry blocks are armed (`ClaimLaunch`), where no thread takes
the stock path. -/

namespace SchedPass

/-- The launch is armed for claiming: slots armed, one axis, and `num_tasks` = `n` > 0. -/
structure ClaimLaunch (L : Launch) (n : ℕ) : Prop where
  armed : ClaimArmed L.useCLC L.R
  grid : Grid1D L.C L.nctaid
  ntasks : loadNumTasks L.mem L.R.ctrl.base = n
  pos : 0 < n

variable {L : Launch} {n : ℕ} {b : Dim3}

theorem ClaimLaunch.ntasks_eq (h : ClaimLaunch L n) : L.ntasks = n := h.ntasks

theorem ClaimLaunch.dispatch_eq (h : ClaimLaunch L n) (b : Dim3) :
    dispatch L.useCLC L.C L.R L.mem L.nctaid b =
      if L.first b < n then .loop (L.first b) else .exit :=
  dispatch_of_armed h.armed h.grid h.ntasks h.pos b

/-! ## The raw ids offered to a CTA -/

/-- The raw ids a CTA has been offered so far: its own index, then what it claimed. -/
def Cta.raws (L : Launch) (b : Dim3) (c : Cta) : List ℕ := L.first b :: c.claims

/-- The latest offer. -/
def Cta.current (L : Launch) (b : Dim3) (c : Cta) : ℕ := c.claims.getLastD (L.first b)

/-- The offers before the latest. -/
def Cta.prior (L : Launch) (b : Dim3) (c : Cta) : List ℕ := (c.raws L b).dropLast

theorem Cta.raws_eq (c : Cta) : c.raws L b = c.prior L b ++ [c.current L b] := by
  have hne : c.raws L b ≠ [] := List.cons_ne_nil _ _
  have hlast : (c.raws L b).getLast hne = c.current L b := by
    simp only [Cta.raws, Cta.current, List.getLast_eq_getLastD]
  rw [← hlast]
  exact (List.dropLast_append_getLast hne).symm

@[simp] theorem Cta.store_prior (c : Cta) (v : ℕ) : (c.store v).prior L b = c.raws L b := by
  have hdrop : ((L.first b :: c.claims) ++ [v]).dropLast = L.first b :: c.claims :=
    List.dropLast_concat
  simpa only [Cta.prior, Cta.raws, Cta.store_claims, List.cons_append] using hdrop

@[simp] theorem Cta.store_current (c : Cta) (v : ℕ) : (c.store v).current L b = v := by
  simp [Cta.current]

theorem Cta.current_of_fresh {c : Cta} (h : c.claims = []) : c.current L b = L.first b := by
  simp [Cta.current, h]

theorem Cta.current_cases (c : Cta) :
    (c.claims = [] ∧ c.current L b = L.first b) ∨ ∃ v ∈ c.claims, c.current L b = v := by
  by_cases hnil : c.claims = []
  · exact Or.inl ⟨hnil, Cta.current_of_fresh hnil⟩
  · refine Or.inr ⟨c.claims.getLast hnil, List.getLast_mem hnil, ?_⟩
    rw [Cta.current, List.getLastD_eq_getLast?, List.getLast?_eq_some_getLast hnil, Option.getD_some]

/-! ## The invariant -/

/-- A thread around the body of the current raw id. -/
inductive Serving (L : Launch) (n : ℕ) (b : Dim3) (c : Cta) : Thread → Prop
  | entry (hc : c.claims = []) : Serving L n b c ⟨.entry, c.prior L b⟩
  | loop (hlt : c.current L b < n) : Serving L n b c ⟨.loop (c.current L b), c.prior L b⟩
  | read (hs : c.shared = c.current L b) : Serving L n b c ⟨.read, c.prior L b⟩
  | bar1 (hlt : c.current L b < n) : Serving L n b c ⟨.bar1, c.raws L b⟩
  | exited (hge : n ≤ c.current L b) : Serving L n b c ⟨.exited, c.prior L b⟩

/-- Where thread `t` is while thread 0 is about to claim. -/
def claimingThread (L : Launch) (b : Dim3) (c : Cta) (t : ℕ) : Thread :=
  ⟨if t = 0 then .claim else .bar2, c.raws L b⟩

/-- The three phases of a CTA, as what its threads have in common. -/
inductive PhaseOk (L : Launch) (n : ℕ) (b : Dim3) (c : Cta) : Prop
  | serving (h : ∀ t < L.threads, Serving L n b c (c.thread t))
  | claiming (hlt : c.current L b < n)
      (h : ∀ t < L.threads, c.thread t = claimingThread L b c t)
  | claimed (hs : c.shared = c.current L b) (h : ∀ t < L.threads, c.thread t = ⟨.bar2, c.prior L b⟩)

/-- The CTA invariant: one of the phases, and only the latest offer can be out of range. -/
structure CtaOk (L : Launch) (n : ℕ) (b : Dim3) (c : Cta) : Prop where
  phase : PhaseOk L n b c
  prior_lt : ∀ v ∈ c.prior L b, v < n

theorem CtaOk.fresh : CtaOk L n b {} where
  phase := .serving fun _ _ => .entry rfl
  prior_lt := by simp [Cta.prior, Cta.raws]

/-- Being around the current body does not depend on what another thread does. -/
theorem Serving.setThread {c : Cta} {th : Thread} (h : Serving L n b c th) (t : ℕ) (th' : Thread) :
    Serving L n b (c.setThread t th') th := by
  cases h with
  | entry hc => exact .entry hc
  | loop hlt => exact .loop hlt
  | read hs => exact .read hs
  | bar1 hlt => exact .bar1 hlt
  | exited hge => exact .exited hge

/-! ## Preservation -/

/-- A thread step stays around the same body. -/
theorem Serving.advance (hL : ClaimLaunch L n) {c : Cta} {th th' : Thread}
    (h : Serving L n b c th) (hstep : th.advance L b c.shared = some th') : Serving L n b c th' := by
  cases h with
  | entry hc =>
      simp only [Thread.advance, hL.dispatch_eq b, ← Cta.current_of_fresh hc] at hstep
      split at hstep
      · next heq => split at heq <;> exact absurd heq (by simp)
      · next heq =>
          split at heq
          · exact absurd heq (by simp)
          · next hge =>
              cases hstep
              exact .exited (not_lt.1 hge)
      · next heq =>
          split at heq
          · next hlt =>
              cases heq
              cases hstep
              exact .loop hlt
          · exact absurd heq (by simp)
  | loop hlt =>
      simp only [Thread.advance, ← Cta.raws_eq] at hstep
      cases hstep
      exact .bar1 hlt
  | read hs =>
      simp only [Thread.advance, hs, hL.ntasks_eq, loopDone, decide_eq_true_eq] at hstep
      cases hstep
      split
      · next hge => exact .exited hge
      · next hlt => exact .loop (not_le.1 hlt)
  | bar1 => simp [Thread.advance] at hstep
  | exited => simp [Thread.advance] at hstep

theorem PhaseOk.step (hL : ClaimLaunch L n) {c c' : Cta} (h : PhaseOk L n b c)
    (hstep : CtaStep L b c c') : PhaseOk L n b c' := by
  cases hstep with
  | @thread t th ht hadv =>
      cases h with
      | serving h =>
          refine .serving fun u hu => ?_
          have hu' : Serving L n b c ((c.setThread t th).thread u) := by
            by_cases hut : u = t
            · subst hut
              rw [Cta.setThread_self]
              exact (h u hu).advance hL hadv
            · rw [Cta.setThread_ne c th hut]
              exact h u hu
          exact hu'.setThread t th
      | claiming _ h =>
          rw [h t ht] at hadv
          by_cases ht0 : t = 0 <;> simp [Thread.advance, claimingThread, ht0] at hadv
      | claimed _ h =>
          rw [h t ht] at hadv
          simp [Thread.advance] at hadv
  | barrier hsome hall =>
      cases h with
      | serving h =>
          obtain ⟨t₀, ht₀, hwait⟩ := hsome
          have hlt : c.current L b < n := by
            generalize hth : c.thread t₀ = th at hwait
            have hserv := h t₀ ht₀
            rw [hth] at hserv
            cases hserv with
            | bar1 hlt => exact hlt
            | _ => exact absurd hwait (by simp [Pc.waiting])
          -- a returned thread would need the current raw id out of range
          have hbar : ∀ t < L.threads, c.thread t = ⟨.bar1, c.raws L b⟩ := by
            intro t ht
            have hw := hall t ht
            generalize hth : c.thread t = th at hw
            have hserv := h t ht
            rw [hth] at hserv
            cases hserv with
            | bar1 => rfl
            | exited hge => omega
            | _ => exact absurd hw (by simp [Pc.waiting])
          -- thread 0 goes on to the claim, the others to the second barrier
          refine .claiming hlt fun t ht => ?_
          rw [Cta.releaseAll_thread, hbar t ht]
          rfl
      | claiming _ h =>
          have hw := hall 0 L.threads_pos
          rw [h 0 L.threads_pos] at hw
          exact absurd hw (by simp [claimingThread, Pc.waiting])
      | claimed hs h =>
          -- behind the second barrier all threads read the same slot
          refine .serving fun t ht => ?_
          rw [Cta.releaseAll_thread, h t ht]
          exact .read hs

theorem CtaOk.step (hL : ClaimLaunch L n) {c c' : Cta} (h : CtaOk L n b c)
    (hstep : CtaStep L b c c') : CtaOk L n b c' := by
  refine ⟨h.phase.step hL hstep, ?_⟩
  cases hstep with
  | thread => exact h.prior_lt
  | barrier => exact h.prior_lt

/-- A CTA whose thread 0 is at the claim is in the claiming phase. -/
theorem CtaOk.claiming {c : Cta} (h : CtaOk L n b c) (hpc : (c.thread 0).pc = .claim) :
    c.current L b < n ∧ ∀ t < L.threads, c.thread t = claimingThread L b c t := by
  cases h.phase with
  | serving hserv =>
      have h0 := hserv 0 L.threads_pos
      generalize c.thread 0 = th at hpc h0
      cases h0 <;> exact absurd hpc (by simp)
  | claiming hlt hall => exact ⟨hlt, hall⟩
  | claimed _ hall =>
      rw [hall 0 L.threads_pos] at hpc
      exact absurd hpc (by simp)

theorem CtaOk.raws_lt {c : Cta} (h : CtaOk L n b c) (hpc : (c.thread 0).pc = .claim) :
    ∀ v ∈ c.raws L b, v < n := by
  intro v hv
  rw [Cta.raws_eq, List.mem_append, List.mem_singleton] at hv
  rcases hv with hv | rfl
  · exact h.prior_lt v hv
  · exact (h.claiming hpc).1

theorem CtaOk.store {c : Cta} (h : CtaOk L n b c) (hpc : (c.thread 0).pc = .claim) (v : ℕ) :
    CtaOk L n b (c.store v) := by
  obtain ⟨_, hall⟩ := h.claiming hpc
  constructor
  · refine .claimed (by simp) fun t ht => ?_
    by_cases ht0 : t = 0
    · subst ht0
      rw [Cta.store_zero, hall 0 ht, Cta.store_prior]
      rfl
    · rw [Cta.store_ne c v ht0, hall t ht, Cta.store_prior, claimingThread, if_neg ht0]
  · rw [Cta.store_prior]
    exact h.raws_lt hpc

/-! ## The invariant of a launch -/

/-- Every launched CTA is one of the grid's, no longer pending, and satisfies the CTA invariant; a
    ticket launch loses no block. -/
structure GridOk (L : Launch) (n : ℕ) (s : Grid) : Prop where
  pending_sub : s.pending ⊆ L.blocks
  launched : ∀ b c, s.cta b = some c → b ∈ L.blocks ∧ b ∉ s.pending
  accounted : L.useCLC = false → ∀ b ∈ L.blocks, b ∈ s.pending ∨ (s.cta b).isSome
  ctas : ∀ b c, s.cta b = some c → CtaOk L n b c

theorem GridOk.start (q : ℕ) : GridOk L n (L.start q) where
  pending_sub := Finset.Subset.refl _
  launched := by simp [Launch.start]
  accounted := fun _ _ hb => Or.inl hb
  ctas := by simp [Launch.start]

theorem GridOk.cta_of_pending {s : Grid} (h : GridOk L n s) {b : Dim3} (hb : b ∈ s.pending) :
    s.cta b = none := by
  cases hc : s.cta b with
  | none => rfl
  | some c => exact absurd hb (h.launched b c hc).2

/-- Replacing the state of a launched CTA, with fewer blocks pending in a CLC launch. -/
theorem GridOk.setCta {s : Grid} (h : GridOk L n s) {b : Dim3} {c c' : Cta} (hc : s.cta b = some c)
    (hok : CtaOk L n b c') {p : Finset Dim3} (hp : p ⊆ s.pending)
    (hmode : L.useCLC = false → p = s.pending) (q i : ℕ) :
    GridOk L n ({ s with pending := p, queue := q, issued := i }.setCta b c') where
  pending_sub := hp.trans h.pending_sub
  launched := by
    intro b' d hd
    by_cases hb : b' = b
    · subst hb
      exact ⟨(h.launched b' c hc).1, fun hmem => (h.launched b' c hc).2 (hp hmem)⟩
    · rw [Grid.setCta_ne _ c' hb] at hd
      exact ⟨(h.launched b' d hd).1, fun hmem => (h.launched b' d hd).2 (hp hmem)⟩
  accounted := by
    intro hm b' hb'
    rw [Grid.setCta_pending, hmode hm]
    by_cases hb : b' = b
    · subst hb
      exact Or.inr (by simp)
    · rw [Grid.setCta_ne _ c' hb]
      exact h.accounted hm b' hb'
  ctas := by
    intro b' d hd
    by_cases hb : b' = b
    · subst hb
      rw [Grid.setCta_self] at hd
      cases hd
      exact hok
    · rw [Grid.setCta_ne _ c' hb] at hd
      exact h.ctas b' d hd

theorem GridOk.step (hL : ClaimLaunch L n) {s s' : Grid} (h : GridOk L n s) (hstep : Step L s s') :
    GridOk L n s' := by
  cases hstep with
  | @launch b hb =>
      refine ⟨(Finset.erase_subset _ _).trans h.pending_sub, fun b' d hd => ?_, fun hm b' hb' => ?_,
        fun b' d hd => ?_⟩
      · by_cases hbb : b' = b
        · subst hbb
          exact ⟨h.pending_sub hb, by simp⟩
        · rw [Grid.setCta_ne _ _ hbb] at hd
          obtain ⟨hmem, hnot⟩ := h.launched b' d hd
          exact ⟨hmem, fun hmem' => hnot (Finset.mem_of_mem_erase hmem')⟩
      · by_cases hbb : b' = b
        · subst hbb
          exact Or.inr (by simp)
        · rw [Grid.setCta_ne _ _ hbb]
          exact (h.accounted hm b' hb').imp (fun hp => Finset.mem_erase.2 ⟨hbb, hp⟩) id
      · by_cases hbb : b' = b
        · subst hbb
          rw [Grid.setCta_self] at hd
          cases hd
          exact .fresh
        · rw [Grid.setCta_ne _ _ hbb] at hd
          exact h.ctas b' d hd
  | cta hc hcta =>
      exact h.setCta hc ((h.ctas _ _ hc).step hL hcta) (Finset.Subset.refl _) (fun _ => rfl) _ _
  | ticket _ hc hpc =>
      exact h.setCta hc ((h.ctas _ _ hc).store hpc _) (Finset.Subset.refl _) (fun _ => rfl) _ _
  | cancel hmode hc hpc _ =>
      exact h.setCta hc ((h.ctas _ _ hc).store hpc _) (Finset.erase_subset _ _)
        (fun hf => absurd (hmode.symm.trans hf) (by decide)) _ _
  | cancelFail _ hc hpc =>
      exact h.setCta hc ((h.ctas _ _ hc).store hpc _) (Finset.Subset.refl _) (fun _ => rfl) _ _

/-- **The launch invariant holds along every run.** -/
theorem GridOk.reaches (hL : ClaimLaunch L n) {q : ℕ} {s : Grid}
    (h : Reaches (Step L) (L.start q) s) : GridOk L n s :=
  h.invariant (fun _ _ hI hs => hI.step hL hs) (.start q)

/-! ## Consequences for the threads -/

/-- A thread has run the offers before the latest, or all and the latest is in range. -/
theorem CtaOk.log_cases {c : Cta} (h : CtaOk L n b c) {t : ℕ} (ht : t < L.threads) :
    (c.thread t).log = c.prior L b ∨ (c.thread t).log = c.raws L b ∧ c.current L b < n := by
  cases h.phase with
  | serving hserv =>
      generalize hth : c.thread t = th
      have hs := hserv t ht
      rw [hth] at hs
      cases hs with
      | bar1 hlt => exact Or.inr ⟨rfl, hlt⟩
      | _ => exact Or.inl rfl
  | claiming hlt hall =>
      rw [hall t ht]
      exact Or.inr ⟨rfl, hlt⟩
  | claimed _ hall =>
      rw [hall t ht]
      exact Or.inl rfl

/-- What a thread has run is a prefix of the CTA's offers. -/
theorem CtaOk.log_prefix {c : Cta} (h : CtaOk L n b c) {t : ℕ} (ht : t < L.threads) :
    (c.thread t).log <+: c.raws L b := by
  rcases h.log_cases ht with hlog | ⟨hlog, -⟩
  · rw [hlog]
    exact List.dropLast_prefix _
  · rw [hlog]

/-- Only raw ids in range are run. -/
theorem CtaOk.log_lt {c : Cta} (h : CtaOk L n b c) {t : ℕ} (ht : t < L.threads) :
    ∀ v ∈ (c.thread t).log, v < n := by
  intro v hv
  rcases h.log_cases ht with hlog | ⟨hlog, hlt⟩
  · exact h.prior_lt v (hlog ▸ hv)
  · rw [hlog, Cta.raws_eq, List.mem_append, List.mem_singleton] at hv
    rcases hv with hv | rfl
    · exact h.prior_lt v hv
    · exact hlt

/-- **Broadcast**: two threads of a CTA use the same raw id on every iteration both have run. -/
theorem CtaOk.same_raw {c : Cta} (h : CtaOk L n b c) {t u i : ℕ} (ht : t < L.threads)
    (hu : u < L.threads) (hit : i < (c.thread t).log.length) (hiu : i < (c.thread u).log.length) :
    (c.thread t).log[i] = (c.thread u).log[i] := by
  rw [(h.log_prefix ht).getElem hit, (h.log_prefix hu).getElem hiu]

/-- Only the last claim of a CTA can fail. -/
theorem CtaOk.claims_lt {c : Cta} (h : CtaOk L n b c) : ∀ v ∈ c.claims.dropLast, v < n := by
  intro v hv
  refine h.prior_lt v ?_
  cases hcl : c.claims with
  | nil => simp [hcl] at hv
  | cons a l =>
      simp only [Cta.prior, Cta.raws, hcl] at hv ⊢
      exact List.mem_cons_of_mem _ hv

/-- A returned thread has run the offers in range, and the latest offer is not. -/
theorem CtaOk.exited {c : Cta} (h : CtaOk L n b c) {t : ℕ} (ht : t < L.threads)
    (hpc : (c.thread t).pc = .exited) :
    (c.thread t).log = c.prior L b ∧ n ≤ c.current L b := by
  cases h.phase with
  | serving hserv =>
      generalize hth : c.thread t = th at hpc
      have hs := hserv t ht
      rw [hth] at hs
      cases hs with
      | exited hge => exact ⟨rfl, hge⟩
      | _ => exact absurd hpc (by simp)
  | claiming _ hall =>
      rw [hall t ht] at hpc
      by_cases ht0 : t = 0 <;> simp [claimingThread, ht0] at hpc
  | claimed _ hall =>
      rw [hall t ht] at hpc
      exact absurd hpc (by simp)

end SchedPass
