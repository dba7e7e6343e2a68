import SchedPass.Controller.Hysteresis
import SchedPass.Lib.Runs
import SchedPass.Plugin.Hooks

set_option autoImplicit false

/-! # The serving estimator (`on_batch_begin`, `_consume_probe`)

The plugin predicts a request's cost from the controller's fit and residual table, and the table's key is
what `_slot_indices` returns: the request-pool index, which SGLang gives to another request when the one
that holds it is finished. Nothing clears an entry. So a prediction uses the residual of everything that was
ever measured at the index, and it is the request's own as long as nobody else was measured there and the
request nowhere else (`estimates_own`). -/

namespace SchedPass

variable {ρ K : Type}

/-! ## Attribution -/

/-- A `torch.int64`. -/
def toInt64 (x : ℤ) : ℤ := Int.bmod x (2 ^ 64)

/-- A sum of `torch.int64`s, added up one by one. -/
def sumInt64 (xs : List ℤ) : ℤ := xs.foldl (fun acc x => toInt64 (acc + x)) 0

/-- The cycles of a probe summed by request: `none` when `scatter_add_` is given an index of an empty
    batch. -/
def perRequest (n ntiles : ℕ) (tileToReq : Option (List ℤ)) (cyc : List ℤ) : Option (List ℤ) :=
  match tileToReq with
  | none =>
      let m := min n cyc.length
      some (cyc.take m ++ List.replicate (n - m) 0)
  | some ti =>
      let m := min ntiles (min cyc.length ti.length)
      let idx := (ti.take m).map fun i => min (max i 0) (n - 1 : ℤ)
      if idx.all (0 ≤ ·) then
        some ((List.range n).map fun j : ℕ =>
          sumInt64 (((idx.zip (cyc.take m)).filter fun p => p.1 = (j : ℤ)).map Prod.snd))
      else none

/-- A row that the estimator took in: whose it is, the index it went under, and by how much the fit
    missed it. -/
structure Measurement (ρ K : Type) where
  rid : ρ
  slot : ℕ
  error : K

/-! ## Serving -/

/-- The plugin with its controller. `reading` is the local binding of `_consume_probe`. The rest is not in
    the code: who held the pool indices when a binding was made, and all measurements so far. -/
structure Engine (ρ K : Type) where
  host : Host K
  ctl : SchedControlPlane ℕ K
  reading : Option (Binding K)
  boundWho : ℕ → ρ
  pendingWho : ℕ → ρ
  readingWho : ℕ → ρ
  log : List (Measurement ρ K)

section

variable [Field K] [LinearOrder K]

/-- The hot path's `alpha * kv + beta + resid`, clamped. -/
def costReq (ctl : SchedControlPlane ℕ K) (slot : ℕ) (kv : K) : K :=
  let (alpha, beta) := ctl.fit.coeffs
  max (alpha * kv + beta + (ctl.resid slot).getD 0) 0

/-- One row of `observe`, with what it adds to the measurements. -/
def measureRow (who : ℕ → ρ) (s : SchedControlPlane ℕ K × List (Measurement ρ K)) (slot : ℕ)
    (kv cy : K) : SchedControlPlane ℕ K × List (Measurement ρ K) :=
  let fitted := { s.1 with fit := s.1.fit.add kv cy }
  (s.1.observeOne slot kv cy,
    if cy ≤ 0 then s.2 else s.2 ++ [⟨who slot, slot, cy - fitted.predictOne kv none⟩])

namespace Engine

/-- The fold of a probe that was made under the binding `b`. -/
def fold (s : Engine ρ K) (b : Binding K) (cyc : List ℤ) : Option (Engine ρ K) :=
  (perRequest b.reqs.length b.ntiles b.tileToReq cyc).map fun rows =>
    let folded := (b.reqs.zip rows).foldl
      (fun sl p => measureRow s.readingWho sl p.1.1 p.1.2 (p.2 : K)) (s.ctl, s.log)
    { s with ctl := folded.1, log := folded.2 }

/-- What an action is to the estimator, in a hook whose batch is held by `who` and which reads the timer
    rows `cyc`. -/
def estimate (s : Engine ρ K) (who : ℕ → ρ) (cyc : List ℤ) : HookAct K → Option (Engine ρ K)
  | .setBinding _ => some { s with boundWho := who }
  | .setPending (some _) => some { s with pendingWho := s.boundWho }
  | .setPending none =>
      some { s with reading := s.host.plugin.pending.join, readingWho := s.pendingWho }
  | .foldProbe =>
      match s.reading with
      | some b => s.fold b cyc
      | none => some s
  | _ => some s

def act (cfg : PluginConfig K) (who : ℕ → ρ) (cyc : List ℤ) (s : Engine ρ K) (a : HookAct K) :
    Option (Engine ρ K) := do
  let s' ← s.estimate who cyc a
  let (h, _) ← s.host.act cfg a
  return { s' with host := h }

/-- A list of actions, until one raises. -/
def acts (cfg : PluginConfig K) (who : ℕ → ρ) (cyc : List ℤ) (s : Engine ρ K)
    (as : List (HookAct K)) : Option (Engine ρ K) :=
  as.foldlM (act cfg who cyc) s

/-- The plugin after `_consume_probe`, with which the hook predicts. -/
def consumed (cfg : PluginConfig K) (s : Engine ρ K) (b : Batch K) (who : ℕ → ρ) (cyc : List ℤ) :
    Option (Engine ρ K) :=
  s.acts cfg who cyc (consumeActs s.host.plugin b)

/-- The batch's costs are the hook's own predictions. -/
def Costed (cfg : PluginConfig K) (s : Engine ρ K) (b : Batch K) (who : ℕ → ρ) (cyc : List ℤ) :
    Prop :=
  ∀ reqs ∈ b.reqs, ∀ s₁ ∈ s.consumed cfg b who cyc, ∀ r ∈ reqs, r.cost = costReq s₁.ctl r.slot r.kv

/-- The plugin after import. -/
def boot (policy : Policy) (ewma deadband : K) (who : ℕ → ρ) (R : ℤ) : Engine ρ K where
  host := ⟨{ clcR := R }, none⟩
  ctl := .init policy ewma deadband
  reading := none
  boundWho := who
  pendingWho := who
  readingWho := who
  log := []

/-- A hook call; an exception, which the caller of the hook catches, may end it after any action. -/
inductive Step (cfg : PluginConfig K) : Engine ρ K → Engine ρ K → Prop
  | begin {s s' : Engine ρ K} (b : Batch K) (who : ℕ → ρ) (cyc : List ℤ) (k : ℕ)
      (hcost : s.Costed cfg b who cyc)
      (hacts : s.acts cfg who cyc ((onBatchBegin cfg s.host.plugin b).take k) = some s') :
      Step cfg s s'
  | finish {s s' : Engine ρ K} (who : ℕ → ρ) (cyc : List ℤ) (k : ℕ)
      (hacts : s.acts cfg who cyc
        ((onBatchEnd s.host.plugin s.host.plane.isSome).take k) = some s') : Step cfg s s'

end Engine

end

section

variable [Field K] [LinearOrder K]

/-- The hot path predicts what the controller would. -/
theorem costReq_eq_predictOne (ctl : SchedControlPlane ℕ K) (slot : ℕ) (kv : K) :
    costReq ctl slot kv = ctl.predictOne kv (some slot) := rfl

/-- The fold is one call of `observe`, under the pool indices. -/
theorem Engine.fold_ctl {s s' : Engine ρ K} {b : Binding K} {cyc : List ℤ}
    (h : s.fold b cyc = some s') :
    ∃ rows, perRequest b.reqs.length b.ntiles b.tileToReq cyc = some rows ∧
      s'.ctl = s.ctl.observe (b.reqs.map Prod.fst) (b.reqs.map Prod.snd) (rows.map Int.cast) := by
  obtain ⟨rows, hrows, rfl⟩ := Option.map_eq_some_iff.1 h
  refine ⟨rows, hrows, ?_⟩
  have hfold : ∀ (reqs : List (ℕ × K)) (rows : List ℤ)
      (sl : SchedControlPlane ℕ K × List (Measurement ρ K)),
      ((reqs.zip rows).foldl (fun sl p => measureRow s.readingWho sl p.1.1 p.1.2 (p.2 : K)) sl).1
        = sl.1.observe (reqs.map Prod.fst) (reqs.map Prod.snd) (rows.map Int.cast) := by
    intro reqs
    induction reqs with
    | nil => exact fun _ _ => rfl
    | cons p reqs ih =>
        intro rows sl
        cases rows with
        | nil => rfl
        | cons cy rows => exact ih rows _
  exact hfold b.reqs rows (s.ctl, s.log)

end

/-! ## Own residuals -/

section

variable [Field K]

/-- The controller's average of a sequence of errors; there is none before the first. -/
def ewmaOf (ewma : K) (errors : List K) : Option K :=
  if errors.isEmpty then none
  else some (errors.foldl (fun r err => (1 - ewma) * r + ewma * err) 0)

theorem ewmaOf_concat (ewma : K) (errors : List K) (err : K) :
    ewmaOf ewma (errors ++ [err])
      = some ((1 - ewma) * (ewmaOf ewma errors).getD 0 + ewma * err) := by
  have hne : (errors ++ [err]).isEmpty = false := by simp
  rw [ewmaOf, hne, List.foldl_append]
  cases errors with
  | nil => rfl
  | cons e errors => rfl

end

section

variable [DecidableEq ρ]

/-- How the fit missed the request, each time it was measured. -/
def ownErrors (log : List (Measurement ρ K)) (rid : ρ) : List K :=
  (log.filter fun m => m.rid = rid).map Measurement.error

/-- The index was measured for the request only, and the request at the index only. -/
def Unshared (log : List (Measurement ρ K)) (rid : ρ) (slot : ℕ) : Prop :=
  ∀ m ∈ log, m.rid = rid ↔ m.slot = slot

end

/-- How the fit missed what was measured at the index. -/
def slotErrors (log : List (Measurement ρ K)) (slot : ℕ) : List K :=
  (log.filter fun m => m.slot = slot).map Measurement.error

theorem Unshared.errors_eq [DecidableEq ρ] {log : List (Measurement ρ K)} {rid : ρ} {slot : ℕ}
    (h : Unshared log rid slot) : slotErrors log slot = ownErrors log rid := by
  rw [slotErrors, ownErrors]
  congr 1
  exact List.filter_congr fun m hm => by simp [h m hm]

theorem slotErrors_concat (log : List (Measurement ρ K)) (m : Measurement ρ K) (slot : ℕ) :
    slotErrors (log ++ [m]) slot
      = if m.slot = slot then slotErrors log slot ++ [m.error] else slotErrors log slot := by
  rw [slotErrors, List.filter_append, List.map_append]
  by_cases h : m.slot = slot <;> simp [slotErrors, h]

/-! ## The table -/

section

variable [Field K] [LinearOrder K]

/-- The residual table holds, under every index, the average of what was measured there. -/
def Averages (ewma : K) (ctl : SchedControlPlane ℕ K) (log : List (Measurement ρ K)) : Prop :=
  ctl.ewma = ewma ∧ ∀ slot, ctl.resid slot = ewmaOf ewma (slotErrors log slot)

variable {ewma : K}

theorem Averages.measureRow {ctl : SchedControlPlane ℕ K} {log : List (Measurement ρ K)}
    (h : Averages ewma ctl log) (who : ℕ → ρ) (slot : ℕ) (kv cy : K) :
    Averages ewma (measureRow who (ctl, log) slot kv cy).1
      (measureRow who (ctl, log) slot kv cy).2 := by
  obtain ⟨hewma, hresid⟩ := h
  by_cases hcy : cy ≤ 0
  · simp only [SchedPass.measureRow, SchedControlPlane.observeOne, if_pos hcy]
    exact ⟨hewma, hresid⟩
  · simp only [SchedPass.measureRow, SchedControlPlane.observeOne, if_neg hcy]
    refine ⟨hewma, fun slot' => ?_⟩
    show Function.update ctl.resid slot _ slot' = _
    rw [slotErrors_concat]
    by_cases hslot : slot = slot'
    · subst hslot
      rw [Function.update_self, if_pos rfl, ewmaOf_concat, ← hresid, hewma]
    · rw [Function.update_of_ne (Ne.symm hslot), if_neg hslot, hresid]

namespace Engine

variable {cfg : PluginConfig K} {s s' s₁ : Engine ρ K} {who : ℕ → ρ} {cyc : List ℤ}

theorem averages_fold (h : Averages ewma s.ctl s.log) {b : Binding K}
    (hfold : s.fold b cyc = some s') : Averages ewma s'.ctl s'.log := by
  obtain ⟨rows, -, rfl⟩ := Option.map_eq_some_iff.1 hfold
  have hrows : ∀ (l : List ((ℕ × K) × ℤ)) (sl : SchedControlPlane ℕ K × List (Measurement ρ K)),
      Averages ewma sl.1 sl.2 →
        Averages ewma
          (l.foldl (fun sl p => measureRow s.readingWho sl p.1.1 p.1.2 (p.2 : K)) sl).1
          (l.foldl (fun sl p => measureRow s.readingWho sl p.1.1 p.1.2 (p.2 : K)) sl).2 := by
    intro l
    induction l with
    | nil => exact fun sl h => h
    | cons p l ih => exact fun sl h => ih _ (h.measureRow s.readingWho p.1.1 p.1.2 p.2)
  exact hrows (b.reqs.zip rows) (s.ctl, s.log) h

theorem averages_estimate (h : Averages ewma s.ctl s.log) {a : HookAct K}
    (hact : s.estimate who cyc a = some s') : Averages ewma s'.ctl s'.log := by
  cases a with
  | setPending p =>
      cases p with
      | none =>
          cases hact
          exact h
      | some b =>
          cases hact
          exact h
  | foldProbe =>
      simp only [estimate] at hact
      split at hact
      · exact averages_fold h hact
      · cases hact
        exact h
  | _ =>
      cases hact
      exact h

theorem averages_act (h : Averages ewma s.ctl s.log) {a : HookAct K}
    (hact : s.act cfg who cyc a = some s') : Averages ewma s'.ctl s'.log := by
  simp only [act, Option.bind_eq_bind, Option.bind_eq_some_iff] at hact
  obtain ⟨s₁, hest, p, -, hs'⟩ := hact
  cases hs'
  have h₁ : Averages ewma s₁.ctl s₁.log := averages_estimate h hest
  exact h₁

theorem averages_acts (h : Averages ewma s.ctl s.log) {as : List (HookAct K)}
    (hacts : s.acts cfg who cyc as = some s') : Averages ewma s'.ctl s'.log := by
  induction as generalizing s with
  | nil =>
      cases hacts
      exact h
  | cons a as ih =>
      rw [acts, List.foldlM_cons, Option.bind_eq_bind, Option.bind_eq_some_iff] at hacts
      obtain ⟨s₁, hact, hrest⟩ := hacts
      exact ih (averages_act h hact) hrest

/-- **The table averages, per index, whatever was measured there**, in every run. -/
theorem averages_reaches {policy : Policy} {deadband : K} {who₀ : ℕ → ρ} {R : ℤ}
    (hrun : Reaches (Step cfg) (boot policy ewma deadband who₀ R) s) : Averages ewma s.ctl s.log := by
  refine hrun.invariant (I := fun s => Averages ewma s.ctl s.log) ?_ ⟨rfl, fun _ => rfl⟩
  intro s s' h hstep
  cases hstep with
  | begin b who cyc k hcost hacts => exact averages_acts h hacts
  | finish who cyc k hacts => exact averages_acts h hacts

end Engine

/-! ## Predictions -/

/-- In some run, the begin hook of a batch held by `who` predicts the costs of `reqs` with the plugin in
    state `s₁`. -/
def Engine.Predicts (cfg : PluginConfig K) (start s₁ : Engine ρ K) (who : ℕ → ρ)
    (reqs : List (Req K)) : Prop :=
  ∃ s b cyc, Reaches (Step cfg) start s ∧ onCadence cfg s.host.plugin = true ∧ b.reqs = some reqs ∧
    b.ntiles reqs ≤ cfg.maxTasks ∧ s.Costed cfg b who cyc ∧ s.consumed cfg b who cyc = some s₁

variable [DecidableEq ρ]

/-- The controller with every request under its own name. -/
def Engine.ownControl (s : Engine ρ K) : SchedControlPlane ρ K where
  policy := s.ctl.policy
  ewma := s.ctl.ewma
  deadband := s.ctl.deadband
  fit := s.ctl.fit
  resid := fun rid => ewmaOf s.ctl.ewma (ownErrors s.log rid)
  gamma := s.ctl.gamma
  lastOrder := s.ctl.lastOrder

omit [LinearOrder K] in
theorem Averages.resid_eq {s : Engine ρ K} (h : Averages ewma s.ctl s.log) {rid : ρ} {slot : ℕ}
    (hown : Unshared s.log rid slot) : s.ctl.resid slot = s.ownControl.resid rid := by
  rw [h.2 slot, hown.errors_eq, ← h.1]
  rfl

/-- **A prediction is the request's own while its index is not shared.** In every run, of batches whose
    requests come and go and whose indices are used again: if each request of the batch was measured
    at its index only, and nobody else was, the hook predicts from the request's own average error,
    `uncertainty` counts the requests that were never measured as unknown, and another run with the
    same fit in which the request was missed by the same errors predicts the same for it. -/
theorem estimates_own (cfg : PluginConfig K) (policy : Policy) (ewma deadband : K) (who₀ : ℕ → ρ)
    (R : ℤ) {s₁ : Engine ρ K} {who : ℕ → ρ} {reqs : List (Req K)}
    (hpredicts : Engine.Predicts cfg (.boot policy ewma deadband who₀ R) s₁ who reqs)
    (hown : ∀ r ∈ reqs, Unshared s₁.log (who r.slot) r.slot) :
    (∀ r ∈ reqs, r.cost = max (s₁.ctl.fit.coeffs.1 * r.kv + s₁.ctl.fit.coeffs.2
        + (ewmaOf ewma (ownErrors s₁.log (who r.slot))).getD 0) 0) ∧
      s₁.ctl.uncertainty (reqs.map Req.slot) (reqs.map Req.kv)
        = s₁.ownControl.uncertainty (reqs.map fun r => who r.slot) (reqs.map Req.kv) ∧
      ∀ (who₀' : ℕ → ρ) (R' : ℤ) (s₁' : Engine ρ K) (who' : ℕ → ρ) (reqs' : List (Req K)),
        Engine.Predicts cfg (.boot policy ewma deadband who₀' R') s₁' who' reqs' →
        ∀ r ∈ reqs, ∀ r' ∈ reqs', Unshared s₁'.log (who' r'.slot) r'.slot →
          who' r'.slot = who r.slot → r'.kv = r.kv → s₁'.ctl.fit = s₁.ctl.fit →
          ownErrors s₁'.log (who r.slot) = ownErrors s₁.log (who r.slot) → r'.cost = r.cost := by
  -- what any run predicts for one request
  have hcost : ∀ {who₀ : ℕ → ρ} {R : ℤ} {s₁ : Engine ρ K} {who : ℕ → ρ} {reqs : List (Req K)},
      Engine.Predicts cfg (.boot policy ewma deadband who₀ R) s₁ who reqs →
      Averages ewma s₁.ctl s₁.log ∧ ∀ r ∈ reqs, Unshared s₁.log (who r.slot) r.slot →
        r.cost = max (s₁.ctl.fit.coeffs.1 * r.kv + s₁.ctl.fit.coeffs.2
          + (ewmaOf ewma (ownErrors s₁.log (who r.slot))).getD 0) 0 := by
    rintro who₀ R s₁ who reqs ⟨s, b, cyc, hrun, -, hreqs, -, hcosted, hread⟩
    have hav := Engine.averages_acts (Engine.averages_reaches hrun) hread
    refine ⟨hav, fun r hr hown => ?_⟩
    rw [hcosted reqs hreqs s₁ hread r hr, costReq, hav.2, hown.errors_eq]
  obtain ⟨hav, hpred⟩ := hcost hpredicts
  refine ⟨fun r hr => hpred r hr (hown r hr), ?_, ?_⟩
  · have hpred : ∀ kv, s₁.ownControl.predictOne kv none = s₁.ctl.predictOne kv none := fun _ => rfl
    have hdoubt : ∀ r ∈ reqs,
        s₁.ctl.doubt r.slot r.kv = s₁.ownControl.doubt (who r.slot) r.kv := by
      intro r hr
      rw [SchedControlPlane.doubt, hav.resid_eq (hown r hr)]
      rfl
    simp only [SchedControlPlane.uncertainty, List.zip_map', List.map_map, Function.comp_def, hpred,
      List.map_congr_left hdoubt]
  · intro who₀' R' s₁' who' reqs' hpredicts' r hr r' hr' hown' hwho hkv hfit herrors
    rw [(hcost hpredicts').2 r' hr' hown', hpred r hr (hown r hr), hwho, hkv, hfit, herrors]

end

/-! ## A reused index -/

namespace Engine

/-- Every step plans and probes. -/
def everyStep : PluginConfig ℚ where
  timerEvery := 1
  planEvery := 1
  maxTasks := 2
  base := 4096
  float := id
  blockSum := List.sum
  argsort := fun _ => []

/-- Requests 1 and 2 at the indices 0 and 1. -/
def firstHolders (slot : ℕ) : ℕ := slot + 1

/-- Request 2 is done, and request 3 gets its index. -/
def laterHolders (slot : ℕ) : ℕ := if slot = 1 then 3 else slot + 1

def bootLpt : Engine ℕ ℚ := boot .lpt (1 / 4) (1 / 50) firstHolders 0

def firstBatch : Batch ℚ where
  reqs := some [⟨0, 1, 1⟩, ⟨1, 1, 1⟩]

/-- Requests 1 and 2 have been probed. -/
def probed : Option (Engine ℕ ℚ) := do
  let s ← bootLpt.acts everyStep firstHolders [] (onBatchBegin everyStep bootLpt.host.plugin firstBatch)
  s.acts everyStep firstHolders [] (onBatchEnd s.host.plugin s.host.plane.isSome)

theorem reaches_probed {s : Engine ℕ ℚ} (h : probed = some s) :
    Reaches (Step everyStep) bootLpt s := by
  obtain ⟨s₁, hbegin, hfinish⟩ := Option.bind_eq_some_iff.1 h
  have hcost : bootLpt.Costed everyStep firstBatch firstHolders [] := by
    intro reqs hreqs s hs
    cases hreqs
    cases hs
    decide +kernel
  have hfirst : Step everyStep bootLpt s₁ :=
    .begin firstBatch firstHolders []
      (onBatchBegin everyStep bootLpt.host.plugin firstBatch).length hcost (by rwa [List.take_length])
  have hsecond : Step everyStep s₁ s :=
    .finish firstHolders [] (onBatchEnd s₁.host.plugin s₁.host.plane.isSome).length
      (by rwa [List.take_length])
  exact (Relation.ReflTransGen.single hfirst).tail hsecond

/-- The plugin when it reads the probe: request 1 took 10 cycles and request 2 took 20. -/
def read (b : Batch ℚ) (who : ℕ → ℕ) : Option (Engine ℕ ℚ) :=
  probed.bind fun s => s.consumed everyStep b who [10, 20]

/-- The cost that is predicted at an index, the fit, and the measurements. -/
def outcome (s : Engine ℕ ℚ) (slot : ℕ) (kv : ℚ) : ℚ × (ℚ × ℚ) × List (ℕ × ℕ × ℚ) :=
  (costReq s.ctl slot kv, s.ctl.fit.coeffs, s.log.map fun m => (m.rid, m.slot, m.error))

/-- The hook predicts by the fit `15 * kv` with the requests 1 and 2 measured. -/
theorem predicts_of_read (b : Batch ℚ) (who : ℕ → ℕ) (r : Req ℚ) (hreqs : b.reqs = some [r])
    (htiles : b.tileToReq = none)
    (hread : (read b who).map (fun s₁ => s₁.outcome r.slot r.kv)
      = some (r.cost, (15, 0), [(1, 0, 0), (2, 1, 5)])) :
    ∃ s₁, Predicts everyStep bootLpt s₁ who [r] ∧ s₁.ctl.fit.coeffs = (15, 0) ∧
      ∀ m ∈ s₁.log, (m.rid = 1 ∧ m.slot = 0) ∨ (m.rid = 2 ∧ m.slot = 1) := by
  obtain ⟨s₁, hs₁, hvals⟩ := Option.map_eq_some_iff.1 hread
  obtain ⟨s, hs, hconsumed⟩ := Option.bind_eq_some_iff.1 hs₁
  obtain ⟨hcost, hrest⟩ := Prod.mk.inj hvals
  obtain ⟨hcoeffs, hlog⟩ := Prod.mk.inj hrest
  refine ⟨s₁, ⟨s, b, [10, 20], reaches_probed hs, ?_, hreqs, ?_, ?_, hconsumed⟩, hcoeffs, ?_⟩
  · simp [onCadence, everyStep, Nat.mod_one]
  · simp [Batch.ntiles, htiles, everyStep]
  · intro reqs hmem s₂ hs₂ r' hr'
    rw [hreqs] at hmem
    cases hmem
    rw [hconsumed] at hs₂
    cases hs₂
    rw [List.mem_singleton.1 hr', hcost]
  · intro m hm
    have hmem : (m.rid, m.slot, m.error) ∈ [(1, 0, (0 : ℚ)), (2, 1, 5)] :=
      hlog ▸ List.mem_map_of_mem hm
    simp only [List.mem_cons, Prod.mk.injEq, List.not_mem_nil, or_false] at hmem
    exact hmem.imp (fun h => ⟨h.1, h.2.1⟩) fun h => ⟨h.1, h.2.1⟩

/-- Request 1 at its index, which nobody else had. -/
def sameHolderBatch : Batch ℚ where
  reqs := some [⟨0, 1, 15⟩]

/-- Request 3 at the index that request 2 had. -/
def reusedBatch : Batch ℚ where
  reqs := some [⟨1, 1, 65 / 4⟩]

end Engine

/-- Request 1, probed once, is predicted from its own error of 0. -/
theorem estimates_own_first : ∃ s₁,
    Engine.Predicts Engine.everyStep Engine.bootLpt s₁ Engine.firstHolders [⟨0, 1, 15⟩] ∧
      (15 : ℚ) = max (s₁.ctl.fit.coeffs.1 * 1 + s₁.ctl.fit.coeffs.2
        + (ewmaOf (1 / 4) (ownErrors s₁.log 1)).getD 0) 0 := by
  obtain ⟨s₁, hpredicts, -, hlog⟩ := Engine.predicts_of_read Engine.sameHolderBatch
    Engine.firstHolders ⟨0, 1, 15⟩ rfl rfl (by decide +kernel)
  have hown : ∀ r ∈ [(⟨0, 1, 15⟩ : Req ℚ)],
      Unshared s₁.log (Engine.firstHolders r.slot) r.slot := by
    intro r hr m hm
    rw [List.mem_singleton.1 hr]
    rcases hlog m hm with ⟨hrid, hslot⟩ | ⟨hrid, hslot⟩ <;> rw [hrid, hslot] <;> decide
  refine ⟨s₁, hpredicts, ?_⟩
  exact (estimates_own Engine.everyStep .lpt (1 / 4) (1 / 50) Engine.firstHolders 0 hpredicts
    hown).1 _ List.mem_cons_self

/-- Request 3 was never measured, and is predicted with the error of request 2. -/
theorem estimates_reused_index : ∃ s₁,
    Engine.Predicts Engine.everyStep Engine.bootLpt s₁ Engine.laterHolders [⟨1, 1, 65 / 4⟩] ∧
      ownErrors s₁.log (Engine.laterHolders 1) = [] ∧
      (65 / 4 : ℚ) ≠ max (s₁.ctl.fit.coeffs.1 * 1 + s₁.ctl.fit.coeffs.2
        + (ewmaOf (1 / 4) (ownErrors s₁.log (Engine.laterHolders 1))).getD 0) 0 := by
  obtain ⟨s₁, hpredicts, hcoeffs, hlog⟩ := Engine.predicts_of_read Engine.reusedBatch
    Engine.laterHolders ⟨1, 1, 65 / 4⟩ rfl rfl (by decide +kernel)
  have hnone : ownErrors s₁.log (Engine.laterHolders 1) = [] := by
    rw [ownErrors, List.map_eq_nil_iff, List.filter_eq_nil_iff]
    intro m hm
    rcases hlog m hm with ⟨hrid, -⟩ | ⟨hrid, -⟩ <;> rw [hrid] <;> decide
  refine ⟨s₁, hpredicts, hnone, ?_⟩
  rw [hnone, hcoeffs]
  decide +kernel

end SchedPass
