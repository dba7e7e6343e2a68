import Mathlib.Data.List.Intervals
import Mathlib.Algebra.BigOperators.Group.Finset.Basic
import Mathlib.Algebra.Order.BigOperators.Group.Finset
import SchedPass.Lib.Custody
import SchedPass.WorkQueue.Lockstep

set_option autoImplicit false

/-! # A driver launch hands over every raw id once

Seen from thread 0 of each CTA a launch is a custody of raw ids: an id below `num_tasks` waits in a
pending block or in the ticket counter, is held by the CTA it was offered to, and is served when the
body has run. Each step of the launch is at most one hand-over (`custody_step`), for tickets as long
as the counter word does not wrap (`TicketOk`) and for CLC as long as the claim decodes the cancelled
block's own index (`DecodesOwn`). A terminated launch is quiescent, so it has served what it started
with. -/

namespace SchedPass

variable {L : Launch} {n q : ℕ}

/-! ## Custody of raw ids -/

/-- A raw id counts as an item when it is below `n`; one that is not ends the loop. -/
def offer (n raw : ℕ) : Multiset ℕ := if raw < n then {raw} else 0

theorem offer_of_lt {r : ℕ} (h : r < n) : offer n r = {r} := if_pos h

theorem offer_of_le {r : ℕ} (h : n ≤ r) : offer n r = 0 := if_neg (not_lt.2 h)

/-- Thread 0 still has the current raw id before it. -/
def Pc.holds : Pc → Bool
  | .entry | .loop _ | .bar2 | .read => true
  | _ => false

def Cta.held (L : Launch) (n : ℕ) (b : Dim3) (c : Cta) : Multiset ℕ :=
  if (c.thread 0).pc.holds then offer n (c.current L b) else 0

def heldAt (L : Launch) (n : ℕ) (b : Dim3) : Option Cta → Multiset ℕ
  | some c => c.held L n b
  | none => 0

def servedAt : Option Cta → Multiset ℕ
  | some c => (c.thread 0).log
  | none => 0

/-- The tickets not yet taken. -/
def ticketsLeft (L : Launch) (n q issued : ℕ) : Multiset ℕ :=
  if L.useCLC then 0 else (List.Ico (q + issued) n : Multiset ℕ)

/-- The launch as a custody of raw ids; `q` is the value the ticket counter was primed to. -/
def custody (L : Launch) (n q : ℕ) (s : Grid) : Custody ℕ where
  waiting := (∑ b ∈ s.pending, offer n (L.first b)) + ticketsLeft L n q s.issued
  held := ∑ b ∈ L.blocks, heldAt L n b (s.cta b)
  served := ∑ b ∈ L.blocks, servedAt (s.cta b)

/-- Taking a raw id that is offered; nothing happens to one that is out of range. -/
theorem reaches_take (r : ℕ) (w h d : Multiset ℕ) :
    Reaches Custody.Step ⟨offer n r + w, h, d⟩ ⟨w, offer n r + h, d⟩ := by
  by_cases hr : r < n
  · rw [offer_of_lt hr, Multiset.singleton_add, Multiset.singleton_add]
    exact .single (.take r w h d)
  · rw [offer_of_le (not_lt.1 hr), zero_add, zero_add]

/-- A sum over the blocks when one CTA changes. -/
theorem sum_setCta {M : Type} [AddCommMonoid M] (f : Dim3 → Option Cta → M) (s : Grid) {b : Dim3}
    (hb : b ∈ L.blocks) (c : Cta) :
    ∃ rest, ∑ x ∈ L.blocks, f x (s.cta x) = f b (s.cta b) + rest ∧
      ∑ x ∈ L.blocks, f x ((s.setCta b c).cta x) = f b (some c) + rest := by
  refine ⟨∑ x ∈ L.blocks.erase b, f x (s.cta x),
    (Finset.add_sum_erase L.blocks (fun x => f x (s.cta x)) hb).symm, ?_⟩
  have hrest : ∑ x ∈ L.blocks.erase b, f x ((s.setCta b c).cta x)
      = ∑ x ∈ L.blocks.erase b, f x (s.cta x) := Finset.sum_congr rfl fun x hx => by
    rw [Grid.setCta_ne s c (Finset.ne_of_mem_erase hx)]
  rw [← Finset.add_sum_erase L.blocks (fun x => f x ((s.setCta b c).cta x)) hb, Grid.setCta_self,
    hrest]

/-! ## A CTA's own steps -/

theorem Cta.held_of_holds {b : Dim3} {c : Cta} (h : (c.thread 0).pc.holds = true) :
    c.held L n b = offer n (c.current L b) := if_pos h

theorem Cta.held_of_not_holds {b : Dim3} {c : Cta} (h : (c.thread 0).pc.holds = false) :
    c.held L n b = 0 := if_neg (by simp [h])

/-- Thread 0 around a body keeps the raw id it holds, or serves it. -/
theorem Serving.held_step (hL : ClaimLaunch L n) {b : Dim3} {c : Cta} {th : Thread}
    (hs : Serving L n b c (c.thread 0)) (hadv : (c.thread 0).advance L b c.shared = some th) :
    ((c.setThread 0 th).held L n b = c.held L n b ∧ th.log = (c.thread 0).log) ∨
      ∃ r, c.held L n b = {r} ∧ (c.setThread 0 th).held L n b = 0 ∧
        th.log = (c.thread 0).log ++ [r] := by
  have hcur : (c.setThread 0 th).current L b = c.current L b := rfl
  generalize hth : c.thread 0 = th₀ at hs hadv
  cases hs with
  | entry hc =>
      left
      simp only [Thread.advance, hL.dispatch_eq b, ← Cta.current_of_fresh hc] at hadv
      by_cases hlt : c.current L b < n
      · simp only [if_pos hlt, Option.some.injEq] at hadv
        subst hadv
        simp [Cta.held, hth, Pc.holds, hcur]
      · simp only [if_neg hlt, Option.some.injEq] at hadv
        subst hadv
        simp [Cta.held, hth, Pc.holds, offer_of_le (not_lt.1 hlt)]
  | loop hlt =>
      right
      simp only [Thread.advance, Option.some.injEq] at hadv
      subst hadv
      refine ⟨c.current L b, ?_, Cta.held_of_not_holds (by simp [Pc.holds]), rfl⟩
      rw [Cta.held_of_holds (by simp [hth, Pc.holds]), offer_of_lt hlt]
  | read hs =>
      left
      simp only [Thread.advance, hs, hL.ntasks_eq, loopDone, decide_eq_true_eq,
        Option.some.injEq] at hadv
      subst hadv
      by_cases hge : c.current L b ≥ n
      · simp [Cta.held, hth, Pc.holds, hge, offer_of_le hge]
      · rw [if_neg hge] at hcur ⊢
        rw [Cta.held_of_holds (by simp [Pc.holds]), hcur, Cta.held_of_holds (by rw [hth]; rfl)]
        exact ⟨rfl, rfl⟩
  | bar1 => simp [Thread.advance] at hadv
  | exited => simp [Thread.advance] at hadv

/-- A step of one CTA hands over nothing, or serves the raw id the CTA holds. -/
theorem CtaOk.held_step (hL : ClaimLaunch L n) {b : Dim3} {c c' : Cta} (h : CtaOk L n b c)
    (hstep : CtaStep L b c c') :
    (c'.held L n b = c.held L n b ∧ (c'.thread 0).log = (c.thread 0).log) ∨
      ∃ r, c.held L n b = {r} ∧ c'.held L n b = 0 ∧
        (c'.thread 0).log = (c.thread 0).log ++ [r] := by
  cases hstep with
  | @thread t th ht hadv =>
      by_cases ht0 : t = 0
      · subst ht0
        rw [Cta.setThread_self]
        cases h.phase with
        | serving hserv => exact (hserv 0 ht).held_step hL hadv
        | claiming _ hall =>
            rw [hall 0 ht] at hadv
            simp [Thread.advance, claimingThread] at hadv
        | claimed _ hall =>
            rw [hall 0 ht] at hadv
            simp [Thread.advance] at hadv
      · left
        have h0 : (c.setThread t th).thread 0 = c.thread 0 := Cta.setThread_ne c th (Ne.symm ht0)
        have hcur : (c.setThread t th).current L b = c.current L b := rfl
        rw [Cta.held, Cta.held, h0, hcur]
        exact ⟨rfl, rfl⟩
  | barrier hsome hall =>
      left
      have hcur : c.releaseAll.current L b = c.current L b := rfl
      rw [Cta.held, Cta.held, hcur, Cta.releaseAll_thread]
      refine ⟨?_, Thread.release_log 0 _⟩
      rcases hpc : (c.thread 0).pc with _ | _ | _ | _ | _ | _ | _ | _ <;>
        simp [Thread.release, hpc, Pc.holds]

/-! ## The ticket counter -/

/-- The CTA has claimed a value out of range. -/
def Cta.failed (n : ℕ) (c : Cta) : Bool := c.claims.any (n ≤ ·)

def failedAt (n : ℕ) : Option Cta → Bool
  | some c => c.failed n
  | none => false

/-- The CTAs that have made a failing claim. -/
def failedBlocks (L : Launch) (n : ℕ) (s : Grid) : Finset Dim3 :=
  L.blocks.filter fun b => failedAt n (s.cta b) = true

/-- The blocks that enter the claim loop. -/
def loopBlocks (L : Launch) (n : ℕ) : Finset Dim3 := L.blocks.filter fun b => L.first b < n

/-- The counter word follows the number of tickets taken; beyond the range, one ticket for each CTA
    that has failed; and a failed claim means the range is used up. -/
structure TicketOk (L : Launch) (n q : ℕ) (s : Grid) : Prop where
  queue : s.queue = (q + s.issued) % 2 ^ 32
  bound : q + s.issued ≤ max n q + (failedBlocks L n s).card
  reached : (failedBlocks L n s).Nonempty → n ≤ q + s.issued

theorem mem_failedBlocks {s : Grid} {b : Dim3} :
    b ∈ failedBlocks L n s ↔ b ∈ L.blocks ∧ ∃ c, s.cta b = some c ∧ c.failed n = true := by
  rw [failedBlocks, Finset.mem_filter]
  cases hc : s.cta b with
  | none => simp [failedAt]
  | some c => simp [failedAt]

theorem CtaOk.not_failed {b : Dim3} {c : Cta} (h : CtaOk L n b c)
    (hpc : (c.thread 0).pc = .claim) : c.failed n = false := by
  have hraws := h.raws_lt hpc
  simp only [Cta.failed, List.any_eq_false, decide_eq_true_eq, not_le]
  exact fun v hv => hraws v (List.mem_cons_of_mem _ hv)

theorem GridOk.notMem_failedBlocks {s : Grid} (h : GridOk L n s) {b : Dim3} {c : Cta}
    (hc : s.cta b = some c) (hpc : (c.thread 0).pc = .claim) : b ∉ failedBlocks L n s := by
  intro hb
  obtain ⟨_, d, hd, hfail⟩ := mem_failedBlocks.1 hb
  rw [hc] at hd
  cases hd
  rw [(h.ctas b c hc).not_failed hpc] at hfail
  exact Bool.false_ne_true hfail

/-- A CTA that has claimed at all entered the loop. -/
theorem CtaOk.first_lt_of_claims {b : Dim3} {c : Cta} (h : CtaOk L n b c) (hne : c.claims ≠ []) :
    L.first b < n := by
  refine h.prior_lt _ ?_
  obtain ⟨a, l, hal⟩ := List.exists_cons_of_ne_nil hne
  simp [Cta.prior, Cta.raws, hal]

theorem failedBlocks_subset {s : Grid} (h : GridOk L n s) :
    failedBlocks L n s ⊆ loopBlocks L n := by
  intro b hb
  obtain ⟨hmem, c, hc, hfail⟩ := mem_failedBlocks.1 hb
  refine Finset.mem_filter.2 ⟨hmem, (h.ctas b c hc).first_lt_of_claims ?_⟩
  rintro hnil
  simp [Cta.failed, hnil] at hfail

/-- A CTA about to claim sees a counter that has not wrapped. -/
theorem TicketOk.counter_lt {s : Grid} (ht : TicketOk L n q s) (h : GridOk L n s)
    (hcap : max n q + (loopBlocks L n).card ≤ 2 ^ 32) {b : Dim3} {c : Cta} (hc : s.cta b = some c)
    (hpc : (c.thread 0).pc = .claim) : q + s.issued < 2 ^ 32 := by
  have hok := h.ctas b c hc
  have hloop : b ∈ loopBlocks L n :=
    Finset.mem_filter.2 ⟨(h.launched b c hc).1, hok.raws_lt hpc _ List.mem_cons_self⟩
  have hcard : (failedBlocks L n s).card < (loopBlocks L n).card :=
    Finset.card_lt_card ⟨failedBlocks_subset h, fun hsub => h.notMem_failedBlocks hc hpc (hsub hloop)⟩
  have := ht.bound
  omega

theorem TicketOk.ticketClaim_eq {s : Grid} (ht : TicketOk L n q s) (h : GridOk L n s)
    (hcap : max n q + (loopBlocks L n).card ≤ 2 ^ 32) {b : Dim3} {c : Cta} (hc : s.cta b = some c)
    (hpc : (c.thread 0).pc = .claim) : (ticketClaim s.queue).1 = q + s.issued := by
  rw [ticketClaim, ht.queue, Nat.mod_mod, Nat.mod_eq_of_lt (ht.counter_lt h hcap hc hpc)]

theorem TicketOk.start (hq : q < 2 ^ 32) : TicketOk L n q (L.start q) where
  queue := (Nat.mod_eq_of_lt hq).symm
  bound := (le_max_right n q).trans (Nat.le_add_right _ _)
  reached := by
    rintro ⟨b, hb⟩
    obtain ⟨_, c, hc, _⟩ := mem_failedBlocks.1 hb
    simp [Launch.start] at hc

/-- The failed CTAs do not change when one CTA changes without claiming. -/
theorem failedBlocks_setCta {s : Grid} {b : Dim3} {c' : Cta}
    (h : failedAt n (s.cta b) = c'.failed n) :
    failedBlocks L n (s.setCta b c') = failedBlocks L n s := by
  refine Finset.filter_congr fun x _ => ?_
  by_cases hx : x = b
  · subst hx
    rw [Grid.setCta_self, h, failedAt]
  · rw [Grid.setCta_ne s c' hx]

theorem Cta.failed_store {c : Cta} (h : c.failed n = false) (v : ℕ) :
    (c.store v).failed n = decide (n ≤ v) := by
  rw [Cta.failed, Cta.store_claims, List.any_append, ← Cta.failed, h]
  simp

/-- A CTA that has not failed joins the failed ones when it claims a value out of range. -/
theorem failedBlocks_store {s : Grid} {b : Dim3} {c : Cta} (hb : b ∈ L.blocks)
    (hc : s.cta b = some c) (hnot : c.failed n = false) (v : ℕ) :
    failedBlocks L n (s.setCta b (c.store v))
      = if v < n then failedBlocks L n s else insert b (failedBlocks L n s) := by
  have hstore := Cta.failed_store hnot v
  by_cases hv : v < n
  · rw [if_pos hv]
    refine failedBlocks_setCta ?_
    rw [hc, failedAt, hnot, hstore, decide_eq_false (not_le.2 hv)]
  · rw [if_neg hv]
    ext x
    rw [Finset.mem_insert, mem_failedBlocks, mem_failedBlocks]
    by_cases hx : x = b
    · subst hx
      refine iff_of_true ⟨hb, _, Grid.setCta_self .., ?_⟩ (Or.inl rfl)
      rw [hstore, decide_eq_true (not_lt.1 hv)]
    · rw [Grid.setCta_ne s _ hx]
      exact (or_iff_right hx).symm

theorem CtaStep.claims_eq {b : Dim3} {c c' : Cta} (h : CtaStep L b c c') : c'.claims = c.claims := by
  cases h <;> rfl

theorem TicketOk.step (hmode : L.useCLC = false)
    (hcap : max n q + (loopBlocks L n).card ≤ 2 ^ 32) {s s' : Grid} (h : GridOk L n s)
    (ht : TicketOk L n q s) (hstep : Step L s s') : TicketOk L n q s' := by
  cases hstep with
  | @launch b hb =>
      have hnone := h.cta_of_pending hb
      have hf : failedBlocks L n ({ s with pending := s.pending.erase b }.setCta b {})
          = failedBlocks L n s :=
        failedBlocks_setCta (s := { s with pending := s.pending.erase b })
          (by simp [hnone, failedAt, Cta.failed])
      exact ⟨ht.queue, by rw [hf]; exact ht.bound, by rw [hf]; exact ht.reached⟩
  | @cta b c c' hc hcta =>
      have hf : failedBlocks L n (s.setCta b c') = failedBlocks L n s :=
        failedBlocks_setCta (by rw [hc, failedAt, Cta.failed, Cta.failed, hcta.claims_eq])
      exact ⟨ht.queue, by rw [hf]; exact ht.bound, by rw [hf]; exact ht.reached⟩
  | @ticket b c _ hc hpc =>
      have hlt := ht.counter_lt h hcap hc hpc
      have hv := ht.ticketClaim_eq h hcap hc hpc
      have hqueue : (ticketClaim s.queue).2 = (q + (s.issued + 1)) % 2 ^ 32 := by
        rw [ticketClaim, ht.queue, Nat.mod_eq_of_lt hlt, Nat.add_assoc]
      have hf : failedBlocks L n
          ({ s with queue := (ticketClaim s.queue).2, issued := s.issued + 1 }.setCta b
            (c.store (ticketClaim s.queue).1))
          = if q + s.issued < n then failedBlocks L n s else insert b (failedBlocks L n s) :=
        hv ▸ failedBlocks_store (h.launched b c hc).1 hc ((h.ctas b c hc).not_failed hpc) _
      refine ⟨hqueue, ?_, ?_⟩ <;> rw [Grid.setCta_issued, hf] <;> simp only
      · have hbound := ht.bound
        by_cases hrange : q + s.issued < n
        · have hmax := le_max_left n q
          omega
        · -- the new claim fails, so this CTA joins the failed ones
          rw [if_neg hrange, Finset.card_insert_of_notMem (h.notMem_failedBlocks hc hpc)]
          omega
      · intro hne
        by_cases hrange : q + s.issued < n
        · rw [if_pos hrange] at hne
          have hreached := ht.reached hne
          omega
        · omega
  | cancel hclc => exact absurd (hmode.symm.trans hclc) (by decide)
  | cancelFail hclc => exact absurd (hmode.symm.trans hclc) (by decide)

/-! ## Every step is at most one hand-over -/

/-- A launch armed for claiming, small enough that the ticket counter does not wrap. -/
structure BoundedClaims (L : Launch) (n q : ℕ) : Prop where
  launch : ClaimLaunch L n
  capacity : L.useCLC = false → max n q + (loopBlocks L n).card ≤ 2 ^ 32

/-- What holds along every run of such a launch. -/
structure ClaimsOk (L : Launch) (n q : ℕ) (s : Grid) : Prop where
  grid : GridOk L n s
  tickets : L.useCLC = false → TicketOk L n q s

theorem ClaimsOk.start (hq : L.useCLC = false → q < 2 ^ 32) : ClaimsOk L n q (L.start q) where
  grid := .start q
  tickets := fun hmode => .start (hq hmode)

theorem ClaimsOk.step (hB : BoundedClaims L n q) {s s' : Grid} (h : ClaimsOk L n q s)
    (hstep : Step L s s') : ClaimsOk L n q s' where
  grid := h.grid.step hB.launch hstep
  tickets := fun hmode => (h.tickets hmode).step hmode (hB.capacity hmode) h.grid hstep

/-- In a CLC launch the claim's decode of a block is the block's own index on the slot axis. -/
def DecodesOwn (L : Launch) : Prop :=
  L.useCLC = true → ∀ v ∈ L.blocks, clcClaim L.ntasks (some v) = L.first v

/-- A CTA's part of what is held and served changes, beside that of the others. -/
theorem reaches_setCta {s : Grid} {b : Dim3} {c' : Cta} (hb : b ∈ L.blocks) {w w' : Multiset ℕ}
    (h : ∀ rest rest', Reaches Custody.Step
      ⟨w, heldAt L n b (s.cta b) + rest, servedAt (s.cta b) + rest'⟩
      ⟨w', heldAt L n b (some c') + rest, servedAt (some c') + rest'⟩) :
    Reaches Custody.Step
      ⟨w, ∑ x ∈ L.blocks, heldAt L n x (s.cta x), ∑ x ∈ L.blocks, servedAt (s.cta x)⟩
      ⟨w', ∑ x ∈ L.blocks, heldAt L n x ((s.setCta b c').cta x),
        ∑ x ∈ L.blocks, servedAt ((s.setCta b c').cta x)⟩ := by
  obtain ⟨rest, hold, hnew⟩ := sum_setCta (heldAt L n) s hb c'
  obtain ⟨rest', hold', hnew'⟩ := sum_setCta (fun _ => servedAt) s hb c'
  rw [hold, hnew, hold', hnew']
  exact h rest rest'

/-- A claim of the value `v`: the CTA held nothing and now holds `v`'s offer. -/
theorem reaches_claim {s : Grid} {b : Dim3} {c : Cta} (h : GridOk L n s) (hc : s.cta b = some c)
    (hpc : (c.thread 0).pc = .claim) (v : ℕ) {w w' : Multiset ℕ} (hw : w = offer n v + w') :
    Reaches Custody.Step
      ⟨w, ∑ x ∈ L.blocks, heldAt L n x (s.cta x), ∑ x ∈ L.blocks, servedAt (s.cta x)⟩
      ⟨w', ∑ x ∈ L.blocks, heldAt L n x ((s.setCta b (c.store v)).cta x),
        ∑ x ∈ L.blocks, servedAt ((s.setCta b (c.store v)).cta x)⟩ := by
  have h0 : heldAt L n b (s.cta b) = 0 := by
    rw [hc]
    exact Cta.held_of_not_holds (by rw [hpc]; rfl)
  have h1 : heldAt L n b (some (c.store v)) = offer n v := by
    rw [heldAt, Cta.held_of_holds (by rw [Cta.store_zero]; rfl), Cta.store_current]
  have hs : servedAt (some (c.store v)) = servedAt (s.cta b) := by
    rw [hc, servedAt, servedAt, Cta.store_log]
  refine reaches_setCta (h.launched b c hc).1 fun rest rest' => ?_
  rw [h0, h1, hs, hw, zero_add]
  exact reaches_take v w' rest _

/-- Taking a ticket leaves the others. -/
theorem ticketsLeft_succ (hmode : L.useCLC = false) (issued : ℕ) :
    ticketsLeft L n q issued = offer n (q + issued) + ticketsLeft L n q (issued + 1) := by
  simp only [ticketsLeft, hmode, Bool.false_eq_true, if_false]
  by_cases hrange : q + issued < n
  · rw [List.Ico.eq_cons hrange, offer_of_lt hrange, Multiset.singleton_add, Multiset.cons_coe,
      Nat.add_assoc]
  · rw [offer_of_le (not_lt.1 hrange), List.Ico.eq_nil_of_le (not_lt.1 hrange),
      List.Ico.eq_nil_of_le (by omega), zero_add]

theorem custody_step (hB : BoundedClaims L n q) (hdec : DecodesOwn L) {s s' : Grid}
    (h : ClaimsOk L n q s) (hstep : Step L s s') :
    Reaches Custody.Step (custody L n q s) (custody L n q s') := by
  cases hstep with
  | @launch b hb =>
      -- the block's own raw id passes from waiting to held
      have hnone := h.grid.cta_of_pending hb
      have hw : ∑ x ∈ s.pending, offer n (L.first x)
          = offer n (L.first b) + ∑ x ∈ s.pending.erase b, offer n (L.first x) :=
        (Finset.add_sum_erase s.pending (fun x => offer n (L.first x)) hb).symm
      have hheld : heldAt L n b (some {}) = offer n (L.first b) := rfl
      have hheld0 : heldAt L n b (s.cta b) = 0 := by
        rw [hnone]
        rfl
      have hserved : servedAt (some ({} : Cta)) = servedAt (s.cta b) := by
        rw [hnone]
        rfl
      refine reaches_setCta (h.grid.pending_sub hb) fun rest rest' => ?_
      simp only [Grid.setCta_pending, Grid.setCta_issued]
      rw [hheld0, hheld, hserved, hw, zero_add, add_assoc]
      exact reaches_take _ _ _ _
  | @cta b c c' hc hcta =>
      refine reaches_setCta (h.grid.launched b c hc).1 fun rest rest' => ?_
      rw [hc]
      rcases (h.grid.ctas b c hc).held_step hB.launch hcta with ⟨hheld, hlog⟩ | ⟨r, hr, h0, hlog⟩
      · have hh : heldAt L n b (some c') = heldAt L n b (some c) := hheld
        have hs : servedAt (some c') = servedAt (some c) := by rw [servedAt, servedAt, hlog]
        rw [hh, hs]
        exact .refl
      · have hh : heldAt L n b (some c) = {r} := hr
        have hh' : heldAt L n b (some c') = 0 := h0
        have hs : servedAt (some c') = r ::ₘ servedAt (some c) := by
          rw [servedAt, servedAt, hlog, ← Multiset.coe_add, add_comm]
          rfl
        rw [hh, hh', hs, zero_add, Multiset.singleton_add, Multiset.cons_add]
        exact .single (.serve r _ _ _)
  | @ticket b c hmode hc hpc =>
      -- the raw id comes out of the tickets left
      have hv := (h.tickets hmode).ticketClaim_eq h.grid (hB.capacity hmode) hc hpc
      refine reaches_claim h.grid hc hpc _ ?_
      simp only [Grid.setCta_pending, Grid.setCta_issued, ticketsLeft_succ hmode s.issued, hv]
      rw [add_left_comm]
  | @cancel b v c hmode hc hpc hv =>
      -- the cancelled block's raw id comes out of the pending ones
      have hw : ∑ x ∈ s.pending, offer n (L.first x)
          = offer n (clcClaim L.ntasks (some v))
            + ∑ x ∈ s.pending.erase v, offer n (L.first x) := by
        rw [hdec hmode v (h.grid.pending_sub hv)]
        exact (Finset.add_sum_erase s.pending (fun x => offer n (L.first x)) hv).symm
      refine reaches_claim h.grid hc hpc _ ?_
      simp only [Grid.setCta_pending, Grid.setCta_issued, hw]
      rw [add_assoc]
  | cancelFail hmode hc hpc =>
      refine reaches_claim h.grid hc hpc _ ?_
      -- nothing is handed over
      rw [clcClaim, hB.launch.ntasks_eq, offer_of_le le_rfl, zero_add]
      rfl

/-! ## A terminated launch -/

theorem ClaimsOk.reaches (hB : BoundedClaims L n q) (hq : L.useCLC = false → q < 2 ^ 32) {s : Grid}
    (h : Reaches (Step L) (L.start q) s) : ClaimsOk L n q s :=
  h.invariant (fun _ _ hI hs => hI.step hB hs) (.start hq)

/-- Ticket workers leave no ticket below `n` behind: the CTA with a first index in range can only
    have returned from a claim out of range. -/
theorem TicketOk.exhausted {s : Grid} (ht : TicketOk L n q s) (h : GridOk L n s)
    (hmode : L.useCLC = false) (hloop : (loopBlocks L n).Nonempty) (hterm : Terminated L s) :
    n ≤ q + s.issued := by
  obtain ⟨b, hb⟩ := hloop
  obtain ⟨hmem, hfirst⟩ := Finset.mem_filter.1 hb
  obtain ⟨c, hc⟩ : ∃ c, s.cta b = some c := by
    rcases h.accounted hmode b hmem with hpend | hsome
    · rw [hterm.1] at hpend
      exact absurd hpend (Finset.notMem_empty b)
    · exact Option.isSome_iff_exists.1 hsome
  have hge := ((h.ctas b c hc).exited L.threads_pos (hterm.2 b c hc 0 L.threads_pos)).2
  refine ht.reached ⟨b, mem_failedBlocks.2 ⟨hmem, c, hc, ?_⟩⟩
  obtain ⟨hnil, hcur⟩ | ⟨v, hv, hcur⟩ := c.current_cases (L := L) (b := b)
  · omega
  · exact List.any_eq_true.2 ⟨v, hv, by simpa [hcur] using hge⟩

theorem custody_quiescent {s : Grid} (h : ClaimsOk L n q s)
    (hloop : L.useCLC = false → (loopBlocks L n).Nonempty) (hterm : Terminated L s) :
    (custody L n q s).Quiescent := by
  constructor
  · have htickets : ticketsLeft L n q s.issued = 0 := by
      unfold ticketsLeft
      cases hmode : L.useCLC with
      | true => rfl
      | false =>
          have hle := (h.tickets hmode).exhausted h.grid hmode (hloop hmode) hterm
          simp [List.Ico.eq_nil_of_le hle]
    simp only [custody, hterm.1, Finset.sum_empty, htickets, zero_add]
  · refine Finset.sum_eq_zero fun b _ => ?_
    cases hc : s.cta b with
    | none => rfl
    | some c =>
        have hpc := hterm.2 b c hc 0 L.threads_pos
        exact Cta.held_of_not_holds (by rw [hpc]; rfl)

/-- **Exactly once**: the raw ids that the threads `t` of a terminated launch have run are those
    offered by the blocks and by the ticket counter, each as often as it was offered. -/
theorem logs_of_terminated (hB : BoundedClaims L n q) (hdec : DecodesOwn L)
    (hq : L.useCLC = false → q < 2 ^ 32) (hloop : L.useCLC = false → (loopBlocks L n).Nonempty)
    {s : Grid} (h : Reaches (Step L) (L.start q) s) (hterm : Terminated L s) {t : ℕ}
    (ht : t < L.threads) :
    ∑ b ∈ L.blocks, (s.log b t : Multiset ℕ)
      = ∑ b ∈ L.blocks, offer n (L.first b) + ticketsLeft L n q 0 := by
  have hok := ClaimsOk.reaches hB hq h
  -- every thread of a returned CTA has the log of thread 0
  have hlog : ∀ b ∈ L.blocks, (s.log b t : Multiset ℕ) = servedAt (s.cta b) := by
    intro b _
    unfold Grid.log
    cases hc : s.cta b with
    | none => rfl
    | some c =>
        have hcta := hok.grid.ctas b c hc
        have hlog := (hcta.exited ht (hterm.2 b c hc t ht)).1
        have hlog0 := (hcta.exited L.threads_pos (hterm.2 b c hc 0 L.threads_pos)).1
        simp only [servedAt, hlog, hlog0]
  have hrun : Reaches Custody.Step (custody L n q (L.start q)) (custody L n q s) :=
    h.simulate (custody L n q) (fun _ _ hI hs => hI.step hB hs)
      (fun _ _ hI hs => custody_step hB hdec hI hs) (ClaimsOk.start hq)
  have hserved := Custody.served_of_quiescent hrun (custody_quiescent hok hloop hterm)
  calc ∑ b ∈ L.blocks, (s.log b t : Multiset ℕ)
      = (custody L n q s).served := Finset.sum_congr rfl hlog
    _ = (custody L n q (L.start q)).items := hserved
    _ = ∑ b ∈ L.blocks, offer n (L.first b) + ticketsLeft L n q 0 := by
        simp [Custody.items, custody, Launch.start, heldAt, servedAt]

/-- The tasks are the images of the raw ids. -/
theorem tasks_eq_map (s : Grid) (t : ℕ) :
    s.tasks L t = (∑ b ∈ L.blocks, (s.log b t : Multiset ℕ)).map L.task := by
  rw [Grid.tasks, ← Multiset.coe_mapAddMonoidHom, map_sum]
  rfl

end SchedPass
