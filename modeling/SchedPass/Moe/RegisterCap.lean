import SchedPass.Jit.FromEnv
import SchedPass.Moe.ExpertCap

set_option autoImplicit false

/-! # Registering the cap (`register_moe_cap`)

The guard against a second registration looks for the installed `forward` among the remembered originals,
where the wrapper that was installed is not: every registration wraps the one before (`forward_run`). A
cap of capped weights changes nothing, so the original still gets the routing capped once; but in observe
mode every layer counts the call (`onceCapped_iff`). -/

namespace SchedPass

variable {W X H : Type} [Zero W]

/-! ## What a forward gets -/

/-- A `topk_output`. -/
structure TopkOutput (W X : Type) where
  topkIds : Option (Tensor2 ℤ)
  topkWeights : Option (Tensor2 W)
  /-- It has `_replace`. -/
  replaceable : Bool
  /-- The other fields. -/
  rest : X
  /-- Both are `[num_tokens, top_k]`. -/
  shape : ∀ ti ∈ topkIds, ∀ tw ∈ topkWeights, tw.rows = ti.rows ∧ tw.cols = ti.cols

/-- `_replace(topk_weights=w)`. -/
def TopkOutput.replaceWeights (out : TopkOutput W X) (w : Tensor2 W)
    (h : ∀ ti ∈ out.topkIds, w.rows = ti.rows ∧ w.cols = ti.cols) : TopkOutput W X :=
  { out with
    topkWeights := some w
    shape := fun ti hti tw htw => by
      cases htw
      exact h ti hti }

/-- The attributes of a layer that the wrapper reads. -/
structure MoeLayer where
  numExperts : Option ℕ
  numLocalExperts : Option ℕ

/-- `getattr(self, "num_experts", None) or getattr(self, "num_local_experts", None)`, when it is truthy. -/
def MoeLayer.experts (layer : MoeLayer) : Option ℕ :=
  (layer.numExperts.filter (· ≠ 0)).or (layer.numLocalExperts.filter (· ≠ 0))

/-! ## The wrapper -/

/-- What a registration reads from the environment. -/
structure CapSettings where
  cf : Float.Model
  mc : ℤ
  observe : Bool
  deriving DecidableEq

/-- `_STATS`. -/
structure CapStats where
  calls : ℕ := 0
  cappedCalls : ℕ := 0
  dropped : ℕ := 0
  routed : ℕ := 0
  deriving DecidableEq

/-- One more call, which dropped `d` of `routed` slots. -/
def CapStats.advance (s : CapStats) (routed d : ℕ) : CapStats where
  calls := s.calls + 1
  cappedCalls := if d ≠ 0 then s.cappedCalls + 1 else s.cappedCalls
  dropped := s.dropped + d
  routed := s.routed + routed

/-- `_observe`. -/
def CapStats.observe (s : CapStats) (topkIds : Tensor2 ℤ) (overflowMask : List Bool) : CapStats :=
  s.advance topkIds.data.length (overflowMask.count true)

namespace CapSettings

/-- The wrapper up to the cap: the ids, the weights and the capped weights; `none` when a check fails or
    the cap raises. -/
def capped (c : CapSettings) (layer : MoeLayer) (out : TopkOutput W X) :
    Option (Tensor2 ℤ × Tensor2 W × Tensor2 W) := do
  let ti ← out.topkIds
  let tw ← out.topkWeights
  let ne ← layer.experts
  if out.replaceable then
    let (w, _) ← moeExpertCap ti tw ne c.cf false c.mc
    return (ti, tw, w)
  else none

theorem capped_cases {c : CapSettings} {layer : MoeLayer} {out : TopkOutput W X} {ti : Tensor2 ℤ}
    {tw w : Tensor2 W} (h : c.capped layer out = some (ti, tw, w)) :
    out.topkIds = some ti ∧ out.topkWeights = some tw ∧ out.replaceable = true ∧
      ∃ ne dropped, layer.experts = some ne ∧ moeExpertCap ti tw ne c.cf false c.mc = some (w, dropped) := by
  simp only [capped, Option.bind_eq_bind, Option.bind_eq_some_iff] at h
  obtain ⟨ti', hti, tw', htw, ne, hne, h⟩ := h
  split at h
  · next hreplaceable =>
      obtain ⟨⟨w', dropped⟩, hcap, h⟩ := Option.bind_eq_some_iff.1 h
      cases h
      exact ⟨hti, htw, hreplaceable, ne, dropped, hne, hcap⟩
  · cases h

theorem capped_shape {c : CapSettings} {layer : MoeLayer} {out : TopkOutput W X} {ti : Tensor2 ℤ}
    {tw w : Tensor2 W} (h : c.capped layer out = some (ti, tw, w)) :
    ∀ ti' ∈ out.topkIds, w.rows = ti'.rows ∧ w.cols = ti'.cols := by
  obtain ⟨hti, htw, -, ne, dropped, -, hcap⟩ := capped_cases h
  intro ti' hti'
  obtain rfl : ti = ti' := Option.some.inj (hti.symm.trans hti')
  obtain ⟨C, -, ⟨-, rfl, -⟩ | ⟨-, -, -, hrows, hcols, -⟩⟩ := moeExpertCap_cases hcap
  · exact out.shape ti hti w htw
  · exact ⟨hrows, hcols⟩

/-- The wrapper up to the call of `orig`. `differ` is the `!=` of the weights' type. -/
def body (differ : W → W → Bool) (c : CapSettings) (layer : MoeLayer) (out : TopkOutput W X) (s : CapStats) :
    CapStats × TopkOutput W X :=
  match h : c.capped layer out with
  | some (ti, tw, w) =>
      (if c.observe then s.observe ti (w.data.zipWith differ tw.data) else s,
        out.replaceWeights w (capped_shape h))
  | none => (s, out)

end CapSettings

/-- A `forward` of the class: the original one, or a wrapper around one. -/
inductive Forward
  | original
  | wrapped (serial : ℕ) (settings : CapSettings) (orig : Forward)
  deriving DecidableEq

/-- A call of the original `forward`. -/
structure OriginalCall (W X H : Type) where
  layer : MoeLayer
  hiddenStates : H
  topkOutput : TopkOutput W X

/-- A call, on the statistics and the calls of the original so far. -/
def Forward.call (differ : W → W → Bool) : Forward → MoeLayer → H → TopkOutput W X →
    CapStats × List (OriginalCall W X H) → CapStats × List (OriginalCall W X H)
  | .original, layer, hidden, out, effects => (effects.1, effects.2 ++ [⟨layer, hidden, out⟩])
  | .wrapped _ c orig, layer, hidden, out, effects =>
      let r := c.body differ layer out effects.1
      orig.call differ layer hidden r.2 (r.1, effects.2)

/-! ## Registrations and forwards -/

/-- `FusedMoE.forward`, the values of `_ORIG`, and what calls have done. -/
structure HookState (W X H : Type) where
  forward : Forward := .original
  remembered : List Forward := []
  serial : ℕ := 0
  effects : CapStats × List (OriginalCall W X H) := ({}, [])

/-- `float(s)` and `int(s)` (`none`: ValueError), and whether `FusedMoE` can be imported. -/
structure CapContext where
  pyFloat : String → Option Float.Model
  pyInt : String → Option ℤ
  sglang : Bool

namespace CapContext

variable (ctx : CapContext) (env : Env)

/-- What a registration reads (`none`: ValueError). -/
def settings : Option CapSettings := do
  let cf ← ctx.pyFloat ((env "SCHED_MOE_CAPACITY").getD "1.25")
  let mc ← ctx.pyInt ((env "SCHED_MOE_MIN_CAP").getD "8")
  return ⟨cf, mc, env "SCHED_MOE_OBSERVE" == some "1"⟩

/-- `register_moe_cap`; `none` is an exception. -/
def registerMoeCap (st : HookState W X H) : Option (Bool × HookState W X H) :=
  if env "SCHED_MOE_CAP" ≠ some "1" then some (false, st)
  else if ctx.sglang = false then some (false, st)
  else if st.forward ∈ st.remembered then some (true, st)
  else do
    let orig := st.forward
    let c ← ctx.settings env
    return (true, { st with
      forward := .wrapped st.serial c orig
      remembered := st.remembered ++ [orig]
      serial := st.serial + 1 })

end CapContext

inductive HookEvent (W X H : Type)
  | register
  | forward (layer : MoeLayer) (hidden : H) (out : TopkOutput W X)

namespace CapContext

variable (ctx : CapContext) (env : Env) (differ : W → W → Bool)

/-- A registration that raises changes nothing. -/
def step (st : HookState W X H) : HookEvent W X H → HookState W X H
  | .register => ((ctx.registerMoeCap env st).map Prod.snd).getD st
  | .forward layer hidden out =>
      { st with effects := st.forward.call differ layer hidden out st.effects }

/-- The process after some events. -/
def run (events : List (HookEvent W X H)) : HookState W X H := events.foldl (ctx.step env differ) {}

/-- The settings of a registration that patches the class. -/
def installs : Option CapSettings :=
  if env "SCHED_MOE_CAP" = some "1" ∧ ctx.sglang = true then ctx.settings env else none

end CapContext

/-! ## The chain of wrappers -/

/-- The wrappers of `k` registrations, each around the one before. -/
def wrappers (c : CapSettings) : ℕ → Forward
  | 0 => .original
  | k + 1 => .wrapped k c (wrappers c k)

theorem wrappers_injective (c : CapSettings) : Function.Injective (wrappers c) := by
  intro j k h
  rcases j with _ | j <;> rcases k with _ | k
  · rfl
  · cases h
  · cases h
  · rw [wrappers, wrappers, Forward.wrapped.injEq] at h
    rw [h.1]

/-- The number of registrations among some events. -/
def registrations (events : List (HookEvent W X H)) : ℕ :=
  events.countP fun e => match e with
    | .register => true
    | .forward .. => false

/-- `k` wrappers are installed, and everything but the outermost is remembered. -/
structure Wrapped (c : CapSettings) (k : ℕ) (st : HookState W X H) : Prop where
  forward : st.forward = wrappers c k
  remembered : st.remembered = (List.range k).map (wrappers c)
  serial : st.serial = k

section

variable {ctx : CapContext} {env : Env} (differ : W → W → Bool) {c : CapSettings}

/-- **The guard never holds**: the installed wrapper is not among the remembered ones. -/
theorem Wrapped.register {k : ℕ} {st : HookState W X H} (h : Wrapped c k st)
    (hc : ctx.installs env = some c) : Wrapped c (k + 1) (ctx.step env differ st .register) := by
  have hguard : st.forward ∉ st.remembered := by
    rw [h.forward, h.remembered, List.mem_map]
    rintro ⟨j, hj, heq⟩
    obtain rfl := wrappers_injective c heq
    exact absurd (List.mem_range.1 hj) (lt_irrefl j)
  rw [CapContext.installs] at hc
  split at hc
  · next hon =>
      have hoff : ¬ctx.sglang = false := by rw [hon.2]; exact Bool.noConfusion
      have hstep : ctx.step env differ st .register = { st with
          forward := .wrapped st.serial c st.forward
          remembered := st.remembered ++ [st.forward]
          serial := st.serial + 1 } := by
        simp only [CapContext.step, CapContext.registerMoeCap, if_neg (not_not.2 hon.1), if_neg hoff,
          if_neg hguard, hc]
        rfl
      rw [hstep]
      constructor
      · dsimp only
        rw [h.serial, h.forward, wrappers]
      · dsimp only
        rw [h.remembered, h.forward, List.range_succ, List.map_append, List.map_singleton]
      · dsimp only
        rw [h.serial]
  · cases hc

theorem step_register_of_none (hc : ctx.installs env = none) (st : HookState W X H) :
    ctx.step env differ st .register = st := by
  simp only [CapContext.step, CapContext.registerMoeCap]
  split
  · rfl
  · next hflag =>
      split
      · rfl
      · next hsglang =>
          split
          · rfl
          · rw [CapContext.installs, if_pos ⟨not_not.1 hflag, by simpa using hsglang⟩] at hc
            rw [hc]
            rfl

theorem run_append (ctx : CapContext) (env : Env) (events : List (HookEvent W X H)) (e : HookEvent W X H) :
    ctx.run env differ (events ++ [e]) = ctx.step env differ (ctx.run env differ events) e := by
  rw [CapContext.run, List.foldl_append]
  rfl

/-- **After `k` registrations there are `k` wrappers.** -/
theorem wrapped_run (hc : ctx.installs env = some c) (events : List (HookEvent W X H)) :
    Wrapped c (registrations events) (ctx.run env differ events) := by
  induction events using List.reverseRecOn with
  | nil => exact ⟨rfl, rfl, rfl⟩
  | append_singleton events e ih =>
      rw [run_append, registrations, List.countP_append, ← registrations]
      cases e with
      | register => exact ih.register differ hc
      | forward layer hidden out => exact ⟨ih.forward, ih.remembered, ih.serial⟩

theorem forward_run_of_none (hc : ctx.installs env = none) (events : List (HookEvent W X H)) :
    (ctx.run env differ events).forward = .original := by
  induction events using List.reverseRecOn with
  | nil => rfl
  | append_singleton events e ih =>
      rw [run_append]
      cases e with
      | register => rw [step_register_of_none differ hc, ih]
      | forward layer hidden out => exact ih

/-! ## What a chain of wrappers does -/

variable {layer : MoeLayer} {hidden : H} {out : TopkOutput W X} {ti : Tensor2 ℤ} {tw w : Tensor2 W}

theorem CapSettings.body_of_capped (h : c.capped layer out = some (ti, tw, w)) (s : CapStats) :
    c.body differ layer out s
      = (if c.observe then s.observe ti (w.data.zipWith differ tw.data) else s,
        out.replaceWeights w (capped_shape h)) := by
  rw [body]
  split
  · next h' =>
      cases h.symm.trans h'
      rfl
  · next h' => cases h.symm.trans h'

theorem CapSettings.body_of_none (h : c.capped layer out = none) (s : CapStats) :
    c.body differ layer out s = (s, out) := by
  rw [body]
  split
  · next h' => cases h.symm.trans h'
  · rfl

/-- The capped routing is capped to itself. -/
theorem CapSettings.capped_again (h : c.capped layer out = some (ti, tw, w)) :
    c.capped layer (out.replaceWeights w (capped_shape h)) = some (ti, w, w) := by
  obtain ⟨hti, -, hreplaceable, ne, dropped, hne, hcap⟩ := capped_cases h
  simp only [capped, TopkOutput.replaceWeights, hti, hne, hreplaceable, Option.bind_eq_bind,
    Option.bind_some, moeExpertCap_again hcap, if_true]
  rfl

omit [Zero W] in
theorem TopkOutput.replaceWeights_self (h : out.topkWeights = some w)
    (hshape : ∀ ti ∈ out.topkIds, w.rows = ti.rows ∧ w.cols = ti.cols) :
    out.replaceWeights w hshape = out := by
  obtain ⟨ids, weights, replaceable, rest, shape⟩ := out
  cases h
  rfl

/-- Nothing to cap: the call goes through. -/
theorem call_wrappers_of_none (h : c.capped layer out = none) (k : ℕ)
    (effects : CapStats × List (OriginalCall W X H)) :
    (wrappers c k).call differ layer hidden out effects
      = (effects.1, effects.2 ++ [⟨layer, hidden, out⟩]) := by
  induction k with
  | zero => rfl
  | succ k ih =>
      rw [wrappers, Forward.call, CapSettings.body_of_none differ h]
      exact ih

/-- Capped weights: every wrapper observes the call, and none changes it. -/
theorem call_wrappers_of_fixed (h : c.capped layer out = some (ti, w, w)) (k : ℕ)
    (effects : CapStats × List (OriginalCall W X H)) :
    (wrappers c k).call differ layer hidden out effects
      = ((if c.observe then (CapStats.observe · ti (w.data.zipWith differ w.data))^[k] effects.1
          else effects.1), effects.2 ++ [⟨layer, hidden, out⟩]) := by
  have hself := TopkOutput.replaceWeights_self (CapSettings.capped_cases h).2.1 (CapSettings.capped_shape h)
  induction k generalizing effects with
  | zero =>
      rw [wrappers, Forward.call, Function.iterate_zero, id, ite_self]
  | succ k ih =>
      rw [wrappers, Forward.call, CapSettings.body_of_capped differ h, hself, ih]
      cases c.observe with
      | false => rfl
      | true => rw [Function.iterate_succ_apply]; rfl

end

/-! ## Counting slots -/

namespace CapSettings

/-- The cap masks a slot. -/
def masks (c : CapSettings) (ne : ℕ) (ti : Tensor2 ℤ) (i : ℕ) : Bool :=
  match capacity c.cf (ti.rows * ti.cols) ne with
  | some C => decide (c.mc ≤ C ∧ C ≤ slotRank ti.data i)
  | none => false

/-- The number of slots that the cap reports as dropped when it counts. -/
def trueDropped (c : CapSettings) (layer : MoeLayer) (ti : Tensor2 ℤ) (tw : Tensor2 W) : ℕ :=
  (do
    let ne ← layer.experts
    let (_, dropped) ← moeExpertCap ti tw ne c.cf true c.mc
    dropped).getD 0

/-- As many slots keep a weight that differs from itself as are masked with a weight of zero. -/
def CountsTruly (differ : W → W → Bool) (c : CapSettings) (layer : MoeLayer) (ti : Tensor2 ℤ)
    (tw : Tensor2 W) : Prop :=
  ∀ ne ∈ layer.experts,
    (List.range tw.data.length).countP
        (fun i => !c.masks ne ti i && differ (tw.data.getD i 0) (tw.data.getD i 0))
      = (List.range tw.data.length).countP (fun i => c.masks ne ti i && !differ 0 (tw.data.getD i 0))

section

variable {c : CapSettings} {ne : ℕ} {ti : Tensor2 ℤ} {tw w : Tensor2 W} {dropped : Option ℕ}

theorem data_of_cap (h : moeExpertCap ti tw ne c.cf false c.mc = some (w, dropped)) :
    w.data = (List.range tw.data.length).map fun i => if c.masks ne ti i then 0 else tw.data.getD i 0 := by
  obtain ⟨C, hC, ⟨hmin, rfl, -⟩ | ⟨hmin, -, hdata, -, -, -⟩⟩ := moeExpertCap_cases h
  · have hmasks : ∀ i, c.masks ne ti i = false := by
      intro i
      rw [masks, hC]
      exact decide_eq_false fun hi => absurd hi.1 (not_le.2 hmin)
    simp only [hmasks]
    exact (map_range_getD w.data 0 fun i _ => rfl).symm
  · rw [hdata, cappedWeights]
    refine List.map_congr_left fun i _ => ?_
    simp only [masks, hC, hmin, true_and, decide_eq_true_eq]

/-- The masked slots are the dropped ones. -/
theorem cap_of_count (h : moeExpertCap ti tw ne c.cf false c.mc = some (w, dropped)) :
    moeExpertCap ti tw ne c.cf true c.mc
      = some (w, some ((List.range tw.data.length).countP (c.masks ne ti))) := by
  obtain ⟨C, hC, ⟨hmin, rfl, -⟩ | ⟨hmin, hret, hdata, hrows, hcols, -⟩⟩ := moeExpertCap_cases h
  · have hmasks : ∀ i ∈ List.range w.data.length, ¬c.masks ne ti i = true := by
      intro i _
      rw [masks, hC]
      simpa using fun hi => absurd hi (not_le.2 hmin)
    rw [moeExpertCap_eq, hC, Option.bind_some, if_pos hmin, List.countP_eq_zero.2 hmasks]
    rfl
  · have hlen : tw.data.length = ti.data.length := by
      rw [← length_cappedWeights C ti.data tw.data, ← hdata, w.size, hrows, hcols, ti.size]
    have hreshape := reshape_eq_some.2 ⟨hdata, hrows, hcols⟩
    have hmasks : (List.range tw.data.length).countP (c.masks ne ti) = droppedSlots C ti.data := by
      rw [droppedSlots, hlen]
      refine List.countP_congr fun i _ => ?_
      simp only [masks, hC, hmin, true_and]
    rw [moeExpertCap_eq, hC, Option.bind_some, if_neg (not_lt.2 hmin), if_pos hret, hreshape, hmasks]
    rfl

/-- What `_observe` counts: slots whose weight changed. -/
theorem count_differ (differ : W → W → Bool)
    (h : moeExpertCap ti tw ne c.cf false c.mc = some (w, dropped)) :
    (w.data.zipWith differ tw.data).count true
      = (List.range tw.data.length).countP
          (fun i => !c.masks ne ti i && differ (tw.data.getD i 0) (tw.data.getD i 0))
        + (List.range tw.data.length).countP (fun i => c.masks ne ti i && differ 0 (tw.data.getD i 0)) := by
  have hzip : w.data.zipWith differ tw.data = (List.range tw.data.length).map fun i =>
      differ (if c.masks ne ti i then 0 else tw.data.getD i 0) (tw.data.getD i 0) := by
    refine List.ext_getElem (by simp [data_of_cap h]) fun i h₁ h₂ => ?_
    have hi : i < tw.data.length := by simpa using h₂
    simp only [List.getElem_zipWith, data_of_cap h, List.getElem_map, List.getElem_range,
      List.getD_eq_getElem _ _ hi]
  rw [hzip, count_true_map, List.countP_eq_countP_filter_add _ _ fun i => !c.masks ne ti i,
    List.countP_filter, List.countP_filter]
  congr 1
  · refine List.countP_congr fun i _ => ?_
    cases c.masks ne ti i <;> simp
  · refine List.countP_congr fun i _ => ?_
    cases c.masks ne ti i <;> simp

/-- **When the statistics are true**: the slots that change are as many as the slots that are dropped. -/
theorem countsTruly_iff (differ : W → W → Bool) {layer : MoeLayer} (hne : layer.experts = some ne)
    (h : moeExpertCap ti tw ne c.cf false c.mc = some (w, dropped)) :
    c.CountsTruly differ layer ti tw ↔
      (w.data.zipWith differ tw.data).count true = c.trueDropped layer ti tw := by
  have htrue : c.trueDropped layer ti tw = (List.range tw.data.length).countP (c.masks ne ti) := by
    simp only [trueDropped, hne, cap_of_count h, Option.bind_eq_bind, Option.bind_some, Option.getD_some]
  have hsplit : (List.range tw.data.length).countP (c.masks ne ti)
      = (List.range tw.data.length).countP (fun i => c.masks ne ti i && differ 0 (tw.data.getD i 0))
        + (List.range tw.data.length).countP
            (fun i => c.masks ne ti i && !differ 0 (tw.data.getD i 0)) := by
    rw [List.countP_eq_countP_filter_add _ _ fun i => differ 0 (tw.data.getD i 0), List.countP_filter,
      List.countP_filter]
  rw [count_differ differ h, htrue, hsplit, CountsTruly, hne]
  constructor
  · intro hcount
    have := hcount ne rfl
    omega
  · rintro hcount ne' ⟨⟩
    omega

end

end CapSettings

/-! ## Registered once -/

/-- What one forward does behind a single registration: one call of the original, with the routing capped
    once, and in observe mode one call more, with its routed and its dropped slots. -/
def onceCapped (settings : Option CapSettings) (layer : MoeLayer) (hidden : H) (out : TopkOutput W X)
    (effects : CapStats × List (OriginalCall W X H)) : CapStats × List (OriginalCall W X H) :=
  match settings with
  | none => (effects.1, effects.2 ++ [⟨layer, hidden, out⟩])
  | some c =>
      match h : c.capped layer out with
      | none => (effects.1, effects.2 ++ [⟨layer, hidden, out⟩])
      | some (ti, tw, w) =>
          (if c.observe then effects.1.advance ti.data.length (c.trueDropped layer ti tw) else effects.1,
            effects.2 ++ [⟨layer, hidden, out.replaceWeights w (CapSettings.capped_shape h)⟩])

section

variable {c : CapSettings} {layer : MoeLayer} {hidden : H} {out : TopkOutput W X} {ti : Tensor2 ℤ}
  {tw w : Tensor2 W} (effects : CapStats × List (OriginalCall W X H))

theorem onceCapped_of_none (h : c.capped layer out = none) :
    onceCapped (some c) layer hidden out effects = (effects.1, effects.2 ++ [⟨layer, hidden, out⟩]) := by
  simp only [onceCapped]
  split
  · rfl
  · next h' => cases h.symm.trans h'

theorem onceCapped_of_capped (h : c.capped layer out = some (ti, tw, w)) :
    onceCapped (some c) layer hidden out effects
      = (if c.observe then effects.1.advance ti.data.length (c.trueDropped layer ti tw) else effects.1,
        effects.2 ++ [⟨layer, hidden, out.replaceWeights w (CapSettings.capped_shape h)⟩]) := by
  simp only [onceCapped]
  split
  · next h' => cases h.symm.trans h'
  · next h' =>
      cases h.symm.trans h'
      rfl

theorem calls_iterate_observe (s : CapStats) (ti : Tensor2 ℤ) (mask : List Bool) (k : ℕ) :
    ((CapStats.observe · ti mask)^[k] s).calls = s.calls + k := by
  induction k with
  | zero => rfl
  | succ k ih =>
      rw [Function.iterate_succ_apply']
      exact congrArg (· + 1) ih

/-- **One forward through a chain of wrappers**: the original gets what it gets behind one of them, and the
    statistics are those of one call if and only if there is one wrapper and it counts truly. -/
theorem call_wrappers_iff (differ : W → W → Bool) (h : c.capped layer out = some (ti, tw, w)) (k : ℕ) :
    (wrappers c (k + 1)).call differ layer hidden out effects = onceCapped (some c) layer hidden out effects ↔
      (c.observe = true → k = 0 ∧ c.CountsTruly differ layer ti tw) := by
  obtain ⟨-, -, -, ne, dropped, hne, hcap⟩ := CapSettings.capped_cases h
  rw [onceCapped_of_capped effects h, wrappers, Forward.call, CapSettings.body_of_capped differ h]
  dsimp only
  rw [call_wrappers_of_fixed differ (CapSettings.capped_again h), CapSettings.countsTruly_iff differ hne hcap]
  cases c.observe with
  | false => simp
  | true =>
      simp only [if_true, true_imp_iff, Prod.mk.injEq, and_true]
      constructor
      · intro hstats
        have hcalls := congrArg CapStats.calls hstats
        rw [calls_iterate_observe] at hcalls
        have hk : k = 0 := by
          simp only [CapStats.observe, CapStats.advance] at hcalls
          omega
        subst hk
        refine ⟨rfl, ?_⟩
        have hdropped := congrArg CapStats.dropped hstats
        simp only [Function.iterate_zero, id, CapStats.observe, CapStats.advance] at hdropped
        omega
      · rintro ⟨rfl, hcount⟩
        rw [Function.iterate_zero, id, CapStats.observe, hcount]

end

/-- In every forward behind a registration, the class behaves as behind a single one. -/
def RegistersOnce (ctx : CapContext) (env : Env) (differ : W → W → Bool) (events : List (HookEvent W X H)) :
    Prop :=
  ∀ pre layer hidden out post, events = pre ++ .forward layer hidden out :: post → .register ∈ pre →
    (ctx.run env differ (pre ++ [.forward layer hidden out])).effects
      = onceCapped (ctx.installs env) layer hidden out (ctx.run env differ pre).effects

/-- In observe mode, a forward whose routing is capped comes behind one registration and changes as many
    weights as it drops. -/
def CountedOnce (settings : Option CapSettings) (differ : W → W → Bool) (registered : ℕ) (layer : MoeLayer)
    (out : TopkOutput W X) : Prop :=
  ∀ c ∈ settings, c.observe = true → ∀ ti tw w, c.capped layer out = some (ti, tw, w) →
    registered = 1 ∧ c.CountsTruly differ layer ti tw

theorem forward_once_iff (ctx : CapContext) (env : Env) (differ : W → W → Bool)
    {pre : List (HookEvent W X H)} (hreg : .register ∈ pre) (layer : MoeLayer) (hidden : H)
    (out : TopkOutput W X) :
    (ctx.run env differ (pre ++ [.forward layer hidden out])).effects
        = onceCapped (ctx.installs env) layer hidden out (ctx.run env differ pre).effects ↔
      CountedOnce (ctx.installs env) differ (registrations pre) layer out := by
  rw [run_append]
  dsimp only [CapContext.step]
  rcases hc : ctx.installs env with _ | c
  · rw [forward_run_of_none differ hc]
    exact ⟨fun _ _ hc => absurd hc (Option.not_mem_none _), fun _ => rfl⟩
  · obtain ⟨k, hk⟩ : ∃ k, registrations pre = k + 1 :=
      Nat.exists_eq_add_one.2 (List.countP_pos_iff.2 ⟨.register, hreg, rfl⟩)
    rw [(wrapped_run differ hc pre).forward, hk]
    rcases hcapped : c.capped layer out with _ | ⟨ti, tw, w⟩
    · rw [call_wrappers_of_none differ hcapped, onceCapped_of_none _ hcapped]
      refine ⟨fun _ c' hc' _ ti tw w hsome => ?_, fun _ => rfl⟩
      cases hc'
      cases hcapped.symm.trans hsome
    · rw [call_wrappers_iff _ differ hcapped]
      constructor
      · intro hcount c' hc' hobserve ti' tw' w' hsome
        cases hc'
        cases hcapped.symm.trans hsome
        obtain ⟨rfl, htruly⟩ := hcount hobserve
        exact ⟨rfl, htruly⟩
      · intro hcount hobserve
        obtain ⟨hone, htruly⟩ := hcount c rfl hobserve ti tw w hcapped
        exact ⟨Nat.succ.inj hone, htruly⟩

/-- **Registering again is harmless exactly where nothing is counted twice.** For every environment and
    every run of registrations and forwards, the class behaves as behind a single registration if and only
    if every forward behind one is counted once and truly. -/
theorem registersOnce_iff (ctx : CapContext) (env : Env) (differ : W → W → Bool)
    (events : List (HookEvent W X H)) :
    RegistersOnce ctx env differ events ↔
      ∀ pre layer hidden out post, events = pre ++ .forward layer hidden out :: post → .register ∈ pre →
        CountedOnce (ctx.installs env) differ (registrations pre) layer out := by
  constructor
  · intro honce pre layer hidden out post hevents hreg
    exact (forward_once_iff ctx env differ hreg layer hidden out).1
      (honce pre layer hidden out post hevents hreg)
  · intro hcounted pre layer hidden out post hevents hreg
    exact (forward_once_iff ctx env differ hreg layer hidden out).2
      (hcounted pre layer hidden out post hevents hreg)

/-! ## Registered twice -/

/-- The two defaults, read. -/
def capContext : CapContext where
  pyFloat s := if s = "1.25" then some (.ofScientific 125 (-2)) else none
  pyInt s := if s = "8" then some 8 else none
  sglang := true

/-- The cap with its statistics. -/
def observeEnv : Env := (Env.set (fun _ => none) "SCHED_MOE_CAP" "1").set "SCHED_MOE_OBSERVE" "1"

/-- One slot of a single expert. -/
def oneSlot : TopkOutput ℕ Unit where
  topkIds := some (.column [0])
  topkWeights := some (.column [7])
  replaceable := true
  rest := ()
  shape := by
    rintro _ ⟨⟩ _ ⟨⟩
    exact ⟨rfl, rfl⟩

/-- **Two registrations, one forward**: the statistics count two calls and two routed slots. -/
theorem registered_twice :
    (capContext.run observeEnv (· != ·)
        [.register, .register, .forward ⟨some 1, none⟩ () oneSlot]).effects.1
      = { calls := 2, cappedCalls := 0, dropped := 0, routed := 2 } ∧
    ¬RegistersOnce capContext observeEnv (· != ·)
      [.register, .register, .forward ⟨some 1, none⟩ () oneSlot] := by
  constructor
  · decide
  · intro honce
    have hcalls := congrArg (fun effects => effects.1.calls)
      (honce [.register, .register] ⟨some 1, none⟩ () oneSlot [] rfl List.mem_cons_self)
    exact absurd hcalls (by decide)

end SchedPass
