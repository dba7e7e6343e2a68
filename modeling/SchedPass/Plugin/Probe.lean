import SchedPass.Plane.TimerView
import SchedPass.Plugin.Overlap

set_option autoImplicit false

/-! # The probe protocol

The hooks' actions, step by step, beside a device that works off a stream of launches, queued writes
and events in order. Each CTA latches the timer gate at its own entry and adds its cycles at its
return. `TimerGate` is what the protocol comes down to on the host's side: the two copies of the
gate, the plugin's flags, and the probe's place among the clock ticks; from a settled gate every hook
runs through allowed actions to a settled gate (`TimerGate.Settled.begin`, `TimerGate.Settled.finish`). -/

namespace SchedPass

/-! ## The machine -/

/-- A CTA's `clock64` bracket: before its entry, inside with the gate it latched, or returned. -/
inductive Bracket
  | before
  | inside (timerOff : Bool)
  | returned
  deriving DecidableEq, Repr

structure TimedCta where
  task : ℕ
  pc : Bracket := .before
  deriving DecidableEq, Repr

/-- One entry of the stream. -/
inductive StreamWork
  | launch (ctas : List TimedCta)
  | write (op : MemOp)
  | event
  deriving DecidableEq, Repr

/-- A stream entry with the clock of its enqueueing. -/
structure StreamItem where
  tag : ℕ
  work : StreamWork
  deriving DecidableEq, Repr

/-- The host with the rest of the hook it runs, the memory and the stream. An event is known by the
    clock of its recording; `clock` ticks when a probe clears the rows and when an event is recorded,
    so that the launches between the two carry the probe's clock. `probe` is the clock of the last
    probe, until the next one is armed; `cycles` logs what the CTAs of each clock have spent on each
    task. -/
structure Pipeline (K : Type) where
  host : Host K
  mem : ByteMem
  stream : List StreamItem := []
  todo : List (HookAct K) := []
  inStep : Bool := false
  clock : ℕ := 0
  fired : List ℕ := []
  inflightEvent : ℕ := 0
  pendingEvent : ℕ := 0
  probe : Option ℕ := none
  cycles : ℕ → ℕ → ℕ := fun _ _ => 0

variable {K : Type}

namespace Pipeline

/-- The host after an action, its immediate writes in memory and the others on the stream. -/
def wrote (s : Pipeline K) (rest : List (HookAct K)) (h : Host K) (w : List MemOp) : Pipeline K :=
  { s with
    host := h
    mem := applyOps s.mem (immediate w)
    stream := s.stream ++ (deferred w).map fun o => ⟨s.clock, .write o⟩
    todo := rest }

/-- The events and clocks of an action. -/
def mark (s : Pipeline K) : HookAct K → Pipeline K
  | .setInflight =>
      { s with
        stream := s.stream ++ [⟨s.clock, .event⟩], inflightEvent := s.clock, clock := s.clock + 1 }
  | .setPending (some _) => { s with pendingEvent := s.inflightEvent }
  | .setTimerArmed true => { s with probe := none }
  | .plane .clearTimer => { s with probe := some (s.clock + 1), clock := s.clock + 1 }
  | _ => s

/-- A probe is consumed and folded only when its event has fired. -/
def Ready (s : Pipeline K) : HookAct K → Prop
  | .setPending none | .foldProbe => s.pendingEvent ∈ s.fired
  | _ => True

instance (s : Pipeline K) (a : HookAct K) : Decidable (s.Ready a) := by
  unfold Ready
  split <;> infer_instance

@[simp] theorem mark_todo (s : Pipeline K) (a : HookAct K) : (s.mark a).todo = s.todo := by
  unfold mark
  split <;> rfl

@[simp] theorem mark_inStep (s : Pipeline K) (a : HookAct K) : (s.mark a).inStep = s.inStep := by
  unfold mark
  split <;> rfl

end Pipeline

/-- The log after a CTA of clock `k` has spent `n` cycles on `task`. -/
def spend (cycles : ℕ → ℕ → ℕ) (k task n : ℕ) : ℕ → ℕ → ℕ :=
  Function.update cycles k (Function.update (cycles k) task (cycles k task + n))

section

variable [Zero K] (cfg : PluginConfig K)

/-- The host: a hook starts, a hook's next action is done, or work is launched between the hooks. -/
inductive HostStep : Pipeline K → Pipeline K → Prop
  | begin {s : Pipeline K} (b : Batch K) (h : s.todo = []) (hin : s.inStep = false) :
      HostStep s { s with todo := s.host.hook cfg (.begin b), inStep := true }
  | finish {s : Pipeline K} (h : s.todo = []) (hin : s.inStep = true) :
      HostStep s { s with todo := s.host.hook cfg .finish, inStep := false }
  | act {s : Pipeline K} {a : HookAct K} {rest : List (HookAct K)} {h' : Host K} {w : List MemOp}
      (h : s.todo = a :: rest) (hact : s.host.act cfg a = some (h', w))
      (hready : s.Ready a) : HostStep s ((s.wrote rest h' w).mark a)
  | launch {s : Pipeline K} (tasks : List ℕ) (h : s.todo = []) :
      HostStep s { s with
        stream := s.stream ++ [⟨s.clock, .launch (tasks.map fun t => { task := t })⟩] }

end

variable (C : Config) (R : RtSlots)

/-- The device works on the head of the stream. -/
inductive DeviceStep : Pipeline K → Pipeline K → Prop
  | enter {s : Pipeline K} {k t : ℕ} {pre post : List TimedCta} {rest : List StreamItem}
      (h : s.stream = ⟨k, .launch (pre ++ ⟨t, .before⟩ :: post)⟩ :: rest) :
      DeviceStep s { s with
        stream := ⟨k, .launch (pre ++ ⟨t, .inside (readTimerOff R s.mem)⟩ :: post)⟩ :: rest }
  | exit {s : Pipeline K} {k t : ℕ} {off : Bool} {pre post : List TimedCta} {rest : List StreamItem}
      (h : s.stream = ⟨k, .launch (pre ++ ⟨t, .inside off⟩ :: post)⟩ :: rest) (spent : ℕ) :
      DeviceStep s { s with
        stream := ⟨k, .launch (pre ++ ⟨t, .returned⟩ :: post)⟩ :: rest
        mem := emitTimer C R s.mem off t spent
        cycles := spend s.cycles k t spent }
  | retire {s : Pipeline K} {k : ℕ} {ctas : List TimedCta} {rest : List StreamItem}
      (h : s.stream = ⟨k, .launch ctas⟩ :: rest) (hdone : ∀ c ∈ ctas, c.pc = .returned) :
      DeviceStep s { s with stream := rest }
  | write {s : Pipeline K} {k : ℕ} {o : MemOp} {rest : List StreamItem}
      (h : s.stream = ⟨k, .write o⟩ :: rest) :
      DeviceStep s { s with stream := rest, mem := o.apply s.mem }
  | event {s : Pipeline K} {k : ℕ} {rest : List StreamItem} (h : s.stream = ⟨k, .event⟩ :: rest) :
      DeviceStep s { s with stream := rest, fired := k :: s.fired }

/-- Host and device, interleaved. -/
inductive PipelineStep [Zero K] (cfg : PluginConfig K) : Pipeline K → Pipeline K → Prop
  | host {s s' : Pipeline K} (h : HostStep cfg s s') : PipelineStep cfg s s'
  | device {s s' : Pipeline K} (h : DeviceStep C R s s') : PipelineStep cfg s s'

/-! ## The gate -/

/-- The host's side of a probe: the mirror's and the published gate, `timer_armed`, whether a probe is
    pending, and the clocks. -/
structure TimerGate where
  mirrorOn : Bool
  on : Bool
  armed : Bool
  pending : Bool
  probe : Option ℕ
  clock : ℕ
  inflightEvent : ℕ
  pendingEvent : ℕ

namespace TimerGate

def act (v : TimerGate) : HookAct K → TimerGate
  | .plane (.setTimerEnabled on) => { v with mirrorOn := on }
  | .plane .push => { v with on := v.mirrorOn }
  | .plane .clearTimer => { v with probe := some (v.clock + 1), clock := v.clock + 1 }
  | .setTimerArmed true => { v with armed := true, probe := none }
  | .setTimerArmed false => { v with armed := false }
  | .setInflight => { v with inflightEvent := v.clock, clock := v.clock + 1 }
  | .setPending (some _) => { v with pending := true, pendingEvent := v.inflightEvent }
  | .setPending none => { v with pending := false }
  | _ => v

/-- What the protocol asks of an action: a push does not turn the timer on under a probe's rows, a
    probe becomes pending with an event recorded after its rows were cleared, and what is folded is the
    last probe. -/
def Allowed (v : TimerGate) : HookAct K → Prop
  | .plane .push => ∀ c, v.probe = some c → v.mirrorOn = true → v.on = true
  | .setPending (some _) => ∃ c, v.probe = some c ∧ c ≤ v.inflightEvent
  | .foldProbe => ∃ c, v.probe = some c ∧ c ≤ v.pendingEvent
  | _ => True

/-- The timer is off for a probe's rows, and a pending probe's event is not older than its rows. -/
structure Quiet (v : TimerGate) : Prop where
  off : ∀ c, v.probe = some c → c < v.clock ∧ v.on = false ∧ v.mirrorOn = false
  event : v.pending = true → ∃ c, v.probe = some c ∧ c ≤ v.pendingEvent

/-- Between hooks the gate is quiet, or, inside a step, it samples the step with the timer on. -/
inductive Settled (inStep : Bool) (v : TimerGate) : Prop
  | quiet (h : v.Quiet) (harmed : v.armed = true → v.pending = true)
  | sampling (hin : inStep = true) (hprobe : v.probe = some v.clock) (hon : v.on = true)
      (hpending : v.pending = false) (harmed : v.armed = true)

/-- The actions can be done one after the other and lead to a settled gate; `raise` cannot be done. -/
def Leads (inStep : Bool) (v : TimerGate) : List (HookAct K) → Prop
  | [] => v.Settled inStep
  | .raise :: _ => True
  | a :: as => v.Allowed a ∧ (v.act a).Leads inStep as

/-- An action that has nothing to do with the timer. -/
def Free : HookAct K → Bool
  | .plane (.setOrder _) | .plane (.setOrderSize _) | .plane (.setNumTasks _) | .plane (.setRow ..)
  | .setStep _ | .setClcR _ | .setOrderN _ | .setBinding _ | .createPlane => true
  | _ => false

variable {v : TimerGate} {inStep : Bool}

theorem leads_cons {a : HookAct K} {as : List (HookAct K)} (ha : v.Allowed a)
    (has : (v.act a).Leads inStep as) : v.Leads inStep (a :: as) := by
  unfold Leads
  split
  · next h => exact absurd h (by simp)
  · trivial
  · next h =>
      cases h
      exact ⟨ha, has⟩

theorem Leads.uncons {a : HookAct K} {as : List (HookAct K)} (h : v.Leads inStep (a :: as))
    (ha : a ≠ .raise) : v.Allowed a ∧ (v.act a).Leads inStep as := by
  unfold Leads at h
  split at h
  · next hnil => exact absurd hnil (by simp)
  · next hraise => exact absurd (List.cons.inj hraise).1 ha
  · next hcons =>
      cases hcons
      exact h

theorem leads_append {as bs : List (HookAct K)} (hfree : ∀ a ∈ as, Free a = true)
    (hbs : v.Leads inStep bs) : v.Leads inStep (as ++ bs) := by
  induction as with
  | nil => exact hbs
  | cons a as ih =>
      have has := ih fun b hb => hfree b (List.mem_cons_of_mem a hb)
      have ha := hfree a List.mem_cons_self
      unfold Free at ha
      split at ha
      all_goals first
        | exact leads_cons trivial has
        | exact absurd ha Bool.false_ne_true

/-! ## The hooks and the gate -/

variable [Zero K] {cfg : PluginConfig K} {st : PluginState K} {b : Batch K}

theorem branchActs_free (costs : List K) (n : ℕ) : ∀ a ∈ branchActs cfg st b costs n, Free a = true := by
  intro a ha
  unfold branchActs installOrder at ha
  split at ha
  · simp only [List.map_cons, List.map_nil, List.cons_append, List.nil_append, List.mem_cons,
      List.not_mem_nil, or_false] at ha
    rcases ha with rfl | rfl | rfl | rfl <;> rfl
  · split at ha
    · simp only [List.cons_append, List.nil_append, List.mem_cons, List.not_mem_nil, or_false] at ha
      rcases ha with rfl | rfl | rfl | rfl <;> rfl
    · simp only [List.nil_append, List.mem_cons, List.not_mem_nil, or_false] at ha
      subst ha
      rfl
  · simp only [List.map_cons, List.map_nil, List.cons_append, List.nil_append, List.mem_cons,
      List.not_mem_nil, or_false] at ha
    rcases ha with rfl | rfl | rfl | rfl <;> rfl
  · simp only [List.mem_cons, List.not_mem_nil, or_false] at ha
    subst ha
    rfl

omit [Zero K] in
theorem hintActs_free (n : ℕ) : ∀ a ∈ hintActs b n, Free a = true := by
  intro a ha
  unfold hintActs at ha
  split at ha
  · exact absurd ha List.not_mem_nil
  · obtain ⟨k, -, rfl⟩ := List.mem_map.1 ha
    rfl

/-- Planning from a quiet gate; a probe starts only when none is pending. -/
theorem Quiet.plan (h : v.Quiet) (hprobe : isProbe cfg st = true → v.pending = false)
    (reqs : List (Req K)) (costs : List K) : v.Leads true (planActs cfg st b reqs costs) := by
  unfold planActs
  have hfree : ∀ a ∈ (if cfg.observeOnly then [.plane (.setNumTasks 0)]
      else branchActs cfg st b costs (b.ntiles reqs) ++ hintActs b (b.ntiles reqs) :
        List (HookAct K)), Free a = true := by
    intro a ha
    split at ha
    · rw [List.mem_singleton.1 ha]
      rfl
    · rcases List.mem_append.1 ha with ha | ha
      · exact branchActs_free costs _ a ha
      · exact hintActs_free _ a ha
  cases hpr : isProbe cfg st with
  | true =>
      simp only [List.append_assoc, List.cons_append, List.nil_append, if_true]
      refine leads_cons trivial (leads_cons trivial (leads_append hfree ?_))
      refine leads_cons (fun c hc => absurd hc (by simp [act])) (leads_cons trivial ?_)
      exact leads_cons trivial (.sampling rfl rfl rfl (hprobe hpr) rfl)
  | false =>
      simp only [List.append_assoc, List.cons_append, List.nil_append, Bool.false_eq_true, if_false]
      refine leads_cons trivial (leads_cons trivial (leads_append hfree ?_))
      refine leads_cons (fun _ _ hon => absurd hon Bool.false_ne_true) (leads_cons trivial ?_)
      exact .quiet ⟨fun c hc => ⟨(h.off c hc).1, rfl, rfl⟩, h.event⟩ fun harmed =>
        absurd harmed Bool.false_ne_true

omit [Zero K] in
/-- Consuming a pending probe leaves a quiet gate. -/
theorem Quiet.consume (h : v.Quiet) (hpending : v.pending = st.pending.isSome)
    {as : List (HookAct K)}
    (has : ∀ v' : TimerGate, v'.Quiet → (st.pending = none → v' = v) → v'.Leads inStep as) :
    v.Leads inStep (consumeActs st b ++ as) := by
  unfold consumeActs
  cases hst : st.pending with
  | none => exact has v h fun _ => rfl
  | some binding =>
      rw [hst] at hpending
      obtain ⟨c, hc, hle⟩ := h.event hpending
      have hquiet : (v.act (.setPending none : HookAct K)).Quiet :=
        ⟨h.off, fun hp => absurd hp Bool.false_ne_true⟩
      have hne : st.pending = none → v.act (.setPending none : HookAct K) = v := fun hnone =>
        absurd (hst.symm.trans hnone) (by simp)
      dsimp only
      split
      · exact has v h fun _ => rfl
      · split
        · exact leads_cons trivial (leads_cons ⟨c, hc, hle⟩ (has _ hquiet hne))
        · exact leads_cons trivial (has _ hquiet hne)

/-- **From a settled gate the begin hook leads to a settled gate.** -/
theorem Settled.begin (h : v.Settled false) (hpending : v.pending = st.pending.isSome) :
    v.Leads true (onBatchBegin cfg st b) := by
  obtain ⟨hquiet, harmed⟩ : v.Quiet ∧ (v.armed = true → v.pending = true) := by
    rcases h with ⟨hquiet, harmed⟩ | hin
    · exact ⟨hquiet, harmed⟩
    · exact absurd hin Bool.false_ne_true
  unfold onBatchBegin
  refine leads_cons trivial ?_
  split
  · exact leads_cons trivial (.quiet ⟨hquiet.off, hquiet.event⟩ fun ha => absurd ha Bool.false_ne_true)
  split
  · exact .quiet hquiet harmed
  next reqs _ =>
  refine leads_cons trivial ?_
  split
  · trivial
  rw [List.append_assoc]
  refine hquiet.consume hpending fun v' hquiet' hsame => leads_cons trivial ?_
  split
  · trivial
  · refine hquiet'.plan (fun hprobe => ?_) reqs _
    have hnone : st.pending = none := by
      unfold isProbe at hprobe
      rw [Bool.and_eq_true] at hprobe
      exact Option.isNone_iff_eq_none.1 hprobe.2
    rw [hsame hnone, hpending, hnone]
    rfl

omit [Zero K] in
/-- **From a settled gate inside a step the end hook leads to a settled gate.** -/
theorem Settled.finish (h : v.Settled true) (harmed : v.armed = st.timerArmed) :
    v.Leads false (onBatchEnd st true) := by
  unfold onBatchEnd
  refine leads_cons trivial ?_
  rw [← harmed]
  rcases h with ⟨hquiet, hpend⟩ | ⟨-, hprobe, hon, hpending, harm⟩
  · have hstep : (v.act (.setInflight : HookAct K)).Quiet :=
      ⟨fun c hc => ⟨Nat.lt_succ_of_lt (hquiet.off c hc).1, (hquiet.off c hc).2⟩, hquiet.event⟩
    split
    · next ha =>
        obtain ⟨c, hc, -⟩ := hquiet.event (hpend ha)
        have hclock : c ≤ v.clock := (hquiet.off c hc).1.le
        refine leads_cons ⟨c, hc, hclock⟩ (leads_cons trivial ?_)
        refine leads_cons (fun _ _ hm => absurd hm Bool.false_ne_true) ?_
        exact .quiet ⟨fun c' hc' => ⟨(hstep.off c' hc').1, rfl, rfl⟩, fun _ => ⟨c, hc, hclock⟩⟩
          fun _ => rfl
    · exact .quiet hstep hpend
  · rw [if_pos harm]
    refine leads_cons ⟨v.clock, hprobe, le_rfl⟩ (leads_cons trivial ?_)
    refine leads_cons (fun _ _ hm => absurd hm Bool.false_ne_true) ?_
    refine .quiet ⟨fun c hc => ⟨?_, rfl, rfl⟩, fun _ => ⟨v.clock, hprobe, le_rfl⟩⟩ fun _ => rfl
    have hceq : v.clock = c := Option.some.inj (hprobe.symm.trans hc)
    exact hceq ▸ Nat.lt_succ_self v.clock

end TimerGate

end SchedPass
