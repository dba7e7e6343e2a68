import SchedPass.Plugin.ProbeRows

set_option autoImplicit false

/-! # What a probe samples

When the probe's event has fired and its rows are folded, the rows hold the cycles of the probe's
launches and nothing else (`probe_samples_step`), in every run in which the end hook's push comes
after the entries of the probe's CTAs and, for host-mapped rows, the begin hook's clear comes when no
earlier CTA can still add to a row. A CTA that enters after the push of timer-off is missed
(`probe_misses_late_entry`). -/

namespace SchedPass

variable {p : SchedPlane} {c : ℕ}

/-! ## The invariant -/

variable {K : Type}

/-- The gate of the host's plane, over the memory that the kernels read. -/
def Pipeline.gate (p : SchedPlane) (s : Pipeline K) : TimerGate where
  mirrorOn := s.host.plane.elim false SchedPlane.mirrorOn
  on := (p.timerView s.mem).on
  armed := s.host.plugin.timerArmed
  pending := s.host.plugin.pending.isSome
  probe := s.probe
  clock := s.clock
  inflightEvent := s.inflightEvent
  pendingEvent := s.pendingEvent

/-- The stream's clocks are in order and the last probe's rows are accounted for. -/
structure PipelineOk (p : SchedPlane) (s : Pipeline K) : Prop where
  plane : s.host.HasPlane p
  channel : p.TimerChannelOk s.mem
  stream : StreamOk p s.stream s.clock s.fired s.cycles
  rows : ∀ c, s.probe = some c →
    c ≤ s.clock ∧ RowsOk p (p.timerView s.mem) c (s.cycles c) s.stream

variable {C : Config} {s s' : Pipeline K}

/-- A step of the device keeps the accounts and leaves the host's side alone. -/
theorem PipelineOk.device (hlaid : p.Laid) (hbase : 0 < p.base) (hC : p.BakesTimer C)
    (hs : PipelineOk p s) (hstep : DeviceStep C p.slots s s') :
    PipelineOk p s' ∧ s'.gate p = s.gate p ∧ s'.todo = s.todo ∧ s'.inStep = s.inStep := by
  obtain ⟨hplane, hchan, hstream, hrows⟩ := hs
  rcases hstep with h | ⟨h, n⟩ | ⟨h, -⟩ | h | h
  · rw [h] at hstream hrows
    refine ⟨⟨hplane, hchan, hstream.relaunch, fun c hc => ⟨(hrows c hc).1, ?_⟩⟩, rfl, rfl, rfl⟩
    rw [SchedPlane.readTimerOff_slots hbase]
    exact (hrows c hc).2.enter
  · rename_i k t off pre post rest
    rw [h] at hstream hrows
    have htag : k ≤ s.clock := (List.forall_mem_cons.1 hstream.tags).1
    have hview := SchedPlane.timerView_emitTimer hlaid hbase hchan hC t n
    have hemit : p.TimerChannelOk (emitTimer C p.slots s.mem off t n) ∧
        (p.timerView (emitTimer C p.slots s.mem off t n)).on = (p.timerView s.mem).on := by
      cases off with
      | true => rw [emitTimer_off]; exact ⟨hchan, rfl⟩
      | false => exact ⟨hview.2, by rw [hview.1]⟩
    refine ⟨⟨hplane, hemit.1, hstream.relaunch.spend htag t n, fun c hc => ⟨(hrows c hc).1, ?_⟩⟩,
      ?_, rfl, rfl⟩
    · exact (hrows c hc).2.exit hlaid hbase hC hchan n
    · unfold Pipeline.gate
      rw [hemit.2]
  · rw [h] at hstream hrows
    exact ⟨⟨hplane, hchan, hstream.pop, fun c hc => ⟨(hrows c hc).1, (hrows c hc).2.pop (by simp)⟩⟩,
      rfl, rfl, rfl⟩
  · rename_i k o rest
    rw [h] at hstream hrows
    have ho := (List.forall_mem_cons.1 hstream.writes).1 o rfl
    have happly : p.TimerChannelOk (o.apply s.mem) ∧
        (p.timerView (o.apply s.mem)).on = (p.timerView s.mem).on := by
      rcases ho with hspares | ⟨rfl, hdev⟩
      · exact ⟨hchan.apply hspares.channel, by rw [SchedPlane.timerView_apply hspares]⟩
      · exact ⟨hchan.apply fun hdev => hlaid.sparesWord_rowsClear hdev,
          by rw [SchedPlane.timerView_rowsClear hlaid]⟩
    refine ⟨⟨hplane, happly.1, hstream.pop, fun c hc => ⟨(hrows c hc).1, ?_⟩⟩, ?_, rfl, rfl⟩
    · exact (hrows c hc).2.write hlaid (ho.imp_right And.left)
    · unfold Pipeline.gate
      rw [happly.2]
  · rw [h] at hstream hrows
    exact ⟨⟨hplane, hchan, hstream.fire, fun c hc => ⟨(hrows c hc).1, (hrows c hc).2.pop (by simp)⟩⟩,
      rfl, rfl, rfl⟩

/-- A plane method called by the host, as the kernels see it. -/
theorem act_plane (hlaid : p.Laid) {cfg : PluginConfig K} {h h' : Host K} {op : PlaneOp}
    {w : List MemOp} {m : ByteMem} (hp : h.HasPlane p) (hact : h.act cfg (.plane op) = some (h', w)) :
    ∃ p₁ p', h.plane = some p₁ ∧ h' = { h with plane := some p' } ∧ p.SameLayout p' ∧
      p₁.exec op = some (p', w) ∧ p₁.Laid ∧ p.SameLayout p₁ ∧
      (p.TimerChannelOk m → p.TimerChannelOk (applyOps m (immediate w))) ∧
      p.timerView (applyOps m (immediate w))
        = { ({ p.timerView m with mirrorOn := p₁.mirrorOn } : TimerView).exec p.timerDev.isSome op with
            mirrorOn := p.mirrorOn } := by
  obtain ⟨p₁, hp₁, hsame⟩ := hp
  simp only [Host.act, hp₁, Option.bind_eq_bind, Option.bind_some, Option.bind_eq_some_iff] at hact
  obtain ⟨⟨p', w'⟩, hexec, heq⟩ := hact
  cases heq
  have hlaid₁ : p₁.Laid := hlaid.congr hsame
  have hsame' : p.SameLayout p' := hsame.trans (SchedPlane.sameLayout_exec hexec)
  refine ⟨p₁, p', hp₁, rfl, hsame', hexec, hlaid₁, hsame, fun hchan => ?_, ?_⟩
  · exact (SchedPlane.timerChannelOk_exec hlaid₁ hexec (hchan.congr hsame)).congr hsame'.symm
  · have hview := SchedPlane.timerView_exec (m := m) hlaid₁ hexec
    rw [hsame.timerView, hsame.timerDev] at hview
    rw [hsame'.symm.timerView, hview]

/-- Writes that spare the timer, and a new memory whose rows are accounted for. -/
theorem PipelineOk.wrote (hs : PipelineOk p s) {rest : List (HookAct K)} {h' : Host K} {w : List MemOp}
    (hplane : h'.HasPlane p) (hchan : p.TimerChannelOk (applyOps s.mem (immediate w)))
    (hspares : ∀ o ∈ deferred w, p.SparesTimer o)
    (hrows : ∀ c, s.probe = some c → RowsOk p (p.timerView s.mem) c (s.cycles c) s.stream →
      RowsOk p (p.timerView (applyOps s.mem (immediate w))) c (s.cycles c) s.stream) :
    PipelineOk p (s.wrote rest h' w) := by
  have hqueue : ∀ it ∈ (deferred w).map (fun o => (⟨s.clock, .write o⟩ : StreamItem)),
      ∃ o, p.SparesTimer o ∧ it = ⟨s.clock, .write o⟩ := by
    intro it hit
    obtain ⟨o, ho, rfl⟩ := List.mem_map.1 hit
    exact ⟨o, hspares o ho, rfl⟩
  refine ⟨hplane, hchan, hs.stream.append ?_ ?_ ?_, fun c hc => ⟨(hs.rows c hc).1, ?_⟩⟩
  · intro it hit
    obtain ⟨o, -, rfl⟩ := hqueue it hit
    rfl
  · intro it hit
    obtain ⟨o, -, rfl⟩ := hqueue it hit
    simp
  · intro it hit o ho
    obtain ⟨o', ho', rfl⟩ := hqueue it hit
    cases ho
    exact Or.inl ho'
  · refine (hrows c hc (hs.rows c hc).2).append fun it hit => ?_
    obtain ⟨o, ho, rfl⟩ := hqueue it hit
    exact ho

/-- An action that calls no plane method writes nothing. -/
theorem PipelineOk.silent (hs : PipelineOk p s) {rest : List (HookAct K)} {h' : Host K}
    (hplane : h'.plane = s.host.plane) : PipelineOk p (s.wrote rest h' []) := by
  obtain ⟨p', hp', hsame⟩ := hs.plane
  refine hs.wrote ⟨p', hplane.trans hp', hsame⟩ hs.channel ?_ fun _ _ hrows => hrows
  exact fun o ho => absurd ho List.not_mem_nil

/-- Events and clocks, except the start of a probe. -/
theorem PipelineOk.mark (hs : PipelineOk p s) {a : HookAct K} (ha : a ≠ .plane .clearTimer) :
    PipelineOk p (s.mark a) := by
  unfold Pipeline.mark
  split
  · refine ⟨hs.plane, hs.channel, hs.stream.record, fun c hc => ?_⟩
    obtain ⟨hle, hrows⟩ := hs.rows c hc
    exact ⟨hle.trans (Nat.le_succ _), hrows.append (List.forall_mem_singleton.2 trivial)⟩
  · exact ⟨hs.plane, hs.channel, hs.stream, hs.rows⟩
  · exact ⟨hs.plane, hs.channel, hs.stream, fun c hc => absurd hc (by simp)⟩
  · exact absurd rfl ha
  · exact hs

/-- The start of a probe. -/
theorem PipelineOk.clear (hlaid : p.Laid) {cfg : PluginConfig K} (hs : PipelineOk p s)
    {rest : List (HookAct K)} {h' : Host K} {w : List MemOp}
    (hact : s.host.act cfg (.plane .clearTimer) = some (h', w))
    (hsilent : p.timerDev = none → ∀ it ∈ s.stream, it.Silent) :
    PipelineOk p ((s.wrote rest h' w).mark (.plane .clearTimer)) := by
  obtain ⟨p₁, p', hp₁, rfl, hsame', hexec, hlaid₁, hsame, hchan, hview⟩ :=
    act_plane (m := s.mem) hlaid hs.plane hact
  have htags : ∀ it ∈ s.stream, it.tag < s.clock + 1 := fun it hit =>
    Nat.lt_succ_of_le (hs.stream.tags it hit)
  have hzero : ∀ t, s.cycles (s.clock + 1) t = 0 := hs.stream.ledger _ (Nat.lt_succ_self _)
  cases hexec
  have hdeferred := SchedPlane.deferred_clearTimer p₁
  rw [hsame.timerDev, hsame.rowsClear] at hdeferred
  cases hdev : p.timerDev with
  | none =>
      -- host-mapped rows are clear at once
      have hrow : ∀ t, (p.timerView (applyOps s.mem (immediate p₁.clearTimer))).row t = 0 := by
        rw [hview, hdev]
        exact fun _ => rfl
      rw [hdev] at hdeferred
      have hstream : (s.stream ++ (deferred p₁.clearTimer).map
          fun o => (⟨s.clock, .write o⟩ : StreamItem)) = s.stream := by
        rw [hdeferred]
        exact List.append_nil _
      simp only [Pipeline.wrote, Pipeline.mark, hstream]
      refine ⟨⟨p₁, rfl, hsame'⟩, hchan hs.channel, hs.stream.tick, fun c hc => ?_⟩
      cases hc
      refine ⟨le_rfl, .hostClear (fun t _ => hrow t) hzero htags (hsilent hdev) fun it hit o ho => ?_⟩
      rcases hs.stream.writes it hit o ho with hspares | ⟨-, hsome⟩
      · exact hspares
      · simp [hdev] at hsome
  | some e =>
      rw [hdev] at hdeferred
      have hstream : (s.stream ++ (deferred p₁.clearTimer).map
          fun o => (⟨s.clock, .write o⟩ : StreamItem))
            = s.stream ++ [⟨s.clock, .write p.rowsClear⟩] := by
        rw [hdeferred]
        rfl
      simp only [Pipeline.wrote, Pipeline.mark, hstream]
      -- device rows are cleared behind everything on the stream
      refine ⟨⟨p₁, rfl, hsame'⟩, hchan hs.channel, ?_, fun c hc => ?_⟩
      · refine (hs.stream.append ?_ ?_ ?_).tick
        · exact List.forall_mem_singleton.2 rfl
        · exact List.forall_mem_singleton.2 (by simp)
        · refine List.forall_mem_singleton.2 fun o ho => ?_
          cases ho
          exact Or.inr ⟨rfl, by simp [hdev]⟩
      · cases hc
        exact ⟨le_rfl, .deviceClear (Nat.lt_succ_self _) htags hzero⟩

/-- **The gate follows the action.** -/
theorem gate_act (hlaid : p.Laid) {cfg : PluginConfig K} (hp : s.host.HasPlane p) {a : HookAct K}
    {rest : List (HookAct K)} {h' : Host K} {w : List MemOp} (hact : s.host.act cfg a = some (h', w)) :
    ((s.wrote rest h' w).mark a).gate p = (s.gate p).act a := by
  cases a with
  | plane op =>
      obtain ⟨p₁, p', hp₁, rfl, -, hexec, -, -, -, hview⟩ := act_plane (m := s.mem) hlaid hp hact
      have hmirror := SchedPlane.mirrorOn_exec hexec
      have hon := congrArg TimerView.on hview
      unfold Pipeline.gate
      cases op with
      | clearTimer =>
          simp only [Pipeline.mark, Pipeline.wrote, TimerGate.act, Option.elim_some, hp₁]
          rw [hmirror, hon]
          cases p.timerDev.isSome <;> rfl
      | _ =>
          simp only [Pipeline.mark, Pipeline.wrote, TimerGate.act, Option.elim_some, hp₁]
          rw [hmirror, hon]
          rfl
  | createPlane =>
      obtain ⟨p₁, hp₁, -⟩ := hp
      simp only [Host.act, hp₁] at hact
      cases hact
      rfl
  | raise => exact absurd hact (by simp [Host.act])
  | setTimerArmed armed =>
      cases hact
      cases armed <;> rfl
  | setPending binding =>
      cases hact
      cases binding <;> rfl
  | _ =>
      cases hact
      rfl

theorem PipelineOk.act (hlaid : p.Laid) {cfg : PluginConfig K} (hs : PipelineOk p s) {a : HookAct K}
    {rest : List (HookAct K)} {h' : Host K} {w : List MemOp} (hact : s.host.act cfg a = some (h', w))
    (hallowed : (s.gate p).Allowed a)
    (hentered : a = .plane .push → ∀ c, s.probe = some c → ∀ it ∈ s.stream, it.tag = c → it.Entered)
    (hsilent : a = .plane .clearTimer → p.timerDev = none → ∀ it ∈ s.stream, it.Silent) :
    PipelineOk p ((s.wrote rest h' w).mark a) := by
  by_cases hclear : a = .plane .clearTimer
  · subst hclear
    exact hs.clear hlaid hact (hsilent rfl)
  refine PipelineOk.mark ?_ hclear
  cases a with
  | plane op =>
      obtain ⟨p₁, p', hp₁, rfl, hsame', hexec, hlaid₁, hsame, hchan, hview⟩ :=
        act_plane (m := s.mem) hlaid hs.plane hact
      have hop : op ≠ .clearTimer := fun h => hclear (congrArg _ h)
      have hspares : ∀ o ∈ deferred w, p.SparesTimer o := fun o ho =>
        (SchedPlane.deferred_exec hlaid₁ hexec hop o ho).congr hsame.symm
      refine hs.wrote ⟨p', rfl, hsame'⟩ (hchan hs.channel) hspares fun c hc hrows => ?_
      rw [hview]
      cases op with
      | push =>
          -- the published gate becomes the mirror's
          cases hon : p₁.mirrorOn with
          | false => exact hrows.turnOff (hentered rfl c hc)
          | true =>
              have hmirror : (s.gate p).mirrorOn = true := by
                simp only [Pipeline.gate, hp₁, Option.elim_some, hon]
              have hpub : (p.timerView s.mem).on = true := hallowed c hc hmirror
              have hsame : ({ p.timerView s.mem with on := true } : TimerView) = p.timerView s.mem := by
                rw [← hpub]
              exact hsame.symm ▸ hrows
      | clearTimer => exact absurd rfl hop
      | _ => exact hrows
  | createPlane =>
      obtain ⟨p₁, hp₁, -⟩ := hs.plane
      simp only [Host.act, hp₁] at hact
      cases hact
      exact hs.silent rfl
  | raise => exact absurd hact (by simp [Host.act])
  | _ =>
      cases hact
      exact hs.silent rfl

/-! ## Timely runs -/

variable [Zero K]

/-- The host's next action races with the device: a push while a CTA of the last probe is still to
    enter, or a clear of host-mapped rows while a CTA on the stream can still add to them. -/
def Pipeline.Racing (p : SchedPlane) (s : Pipeline K) : Prop :=
  match s.todo with
  | .plane .push :: _ => ∃ it ∈ s.stream, s.probe = some it.tag ∧ ¬ it.Entered
  | .plane .clearTimer :: _ => p.timerDev = none ∧ ∃ it ∈ s.stream, ¬ it.Silent
  | _ => False

instance (p : SchedPlane) (s : Pipeline K) : Decidable (s.Racing p) := by
  unfold Pipeline.Racing
  split <;> infer_instance

/-- A step that does no racing action. -/
structure TimelyStep (C : Config) (cfg : PluginConfig K) (p : SchedPlane) (s s' : Pipeline K) : Prop where
  step : PipelineStep C p.slots cfg s s'
  timely : s'.todo ≠ s.todo → ¬ s.Racing p

/-- The accounts hold and the rest of the hook leads to a settled gate. -/
structure Pipeline.Invariant (p : SchedPlane) (s : Pipeline K) : Prop where
  ok : PipelineOk p s
  leads : (s.gate p).Leads s.inStep s.todo

omit [Zero K] in
/-- New work counts for the last probe exactly if that probe samples the step. -/
theorem Pipeline.Invariant.launch (h : s.Invariant p) (htodo : s.todo = []) (tasks : List ℕ) :
    Pipeline.Invariant p { s with
      stream := s.stream ++ [⟨s.clock, .launch (tasks.map fun t => { task := t })⟩] } := by
  obtain ⟨⟨hplane, hchan, hstream, hrows⟩, hleads⟩ := h
  refine ⟨⟨hplane, hchan, hstream.append ?_ ?_ ?_, fun c hc => ⟨(hrows c hc).1, ?_⟩⟩, hleads⟩
  · exact List.forall_mem_singleton.2 rfl
  · exact List.forall_mem_singleton.2 (by simp)
  · exact List.forall_mem_singleton.2 (by simp)
  · refine (hrows c hc).2.append (List.forall_mem_singleton.2 fun a ha => ?_)
    obtain ⟨t, -, rfl⟩ := List.mem_map.1 ha
    show (p.timerView s.mem).on = (s.clock == c)
    rw [htodo] at hleads
    rcases hleads with ⟨hquiet, -⟩ | ⟨-, hprobe, hon⟩
    -- between probes the published gate is off
    · obtain ⟨hlt, hoff, -⟩ := hquiet.off c hc
      exact hoff.trans (beq_false_of_ne hlt.ne').symm
    · have hclock : s.clock = c := Option.some.inj (hprobe.symm.trans hc)
      rw [hclock, beq_self_eq_true]
      exact hon

/-- **A timely step keeps the invariant.** -/
theorem Pipeline.Invariant.step (hlaid : p.Laid) (hbase : 0 < p.base) (hC : p.BakesTimer C)
    {cfg : PluginConfig K} (h : s.Invariant p) (hstep : TimelyStep C cfg p s s') : s'.Invariant p := by
  obtain ⟨hstep, htimely⟩ := hstep
  rcases hstep with hhost | hdev
  · rcases hhost with ⟨b, htodo, hin⟩ | ⟨htodo, hin⟩ | ⟨htodo, hact, -⟩ | ⟨tasks, htodo⟩
    · refine ⟨⟨h.ok.plane, h.ok.channel, h.ok.stream, h.ok.rows⟩, ?_⟩
      have hsettled := h.leads
      rw [htodo, hin] at hsettled
      exact hsettled.begin rfl
    · refine ⟨⟨h.ok.plane, h.ok.channel, h.ok.stream, h.ok.rows⟩, ?_⟩
      have hsettled := h.leads
      obtain ⟨p', hp', -⟩ := h.ok.plane
      rw [htodo, hin] at hsettled
      simp only [Host.hook, hp', Option.isSome_some]
      exact hsettled.finish rfl
    · rename_i a rest h' w
      have hcalm : ¬ s.Racing p := htimely (by
        rw [Pipeline.mark_todo, htodo]
        exact (List.cons_ne_self a rest).symm)
      have hraise : a ≠ .raise := by
        rintro rfl
        exact absurd hact (by simp [Host.act])
      have hleads := h.leads
      rw [htodo] at hleads
      obtain ⟨hallowed, hrest⟩ := hleads.uncons hraise
      refine ⟨h.ok.act hlaid hact hallowed ?_ ?_, ?_⟩
      · rintro rfl c hc it hit htag
        by_contra hlate
        refine hcalm ?_
        simp only [Pipeline.Racing, htodo]
        exact ⟨it, hit, htag ▸ hc, hlate⟩
      · rintro rfl hdev it hit
        by_contra hloud
        refine hcalm ?_
        simp only [Pipeline.Racing, htodo]
        exact ⟨hdev, it, hit, hloud⟩
      · rw [gate_act hlaid h.ok.plane hact, Pipeline.mark_todo, Pipeline.mark_inStep]
        exact hrest
    · exact h.launch htodo tasks
  · obtain ⟨hok, hgate, htodo, hin⟩ := h.ok.device hlaid hbase hC hdev
    exact ⟨hok, by rw [hgate, htodo, hin]; exact h.leads⟩

omit [Zero K] in
/-- What the invariant says when the last probe's rows are folded. -/
theorem Pipeline.Invariant.fold (h : s.Invariant p) {rest : List (HookAct K)}
    (htodo : s.todo = .foldProbe :: rest) (hfired : s.pendingEvent ∈ s.fired) :
    ∃ c, s.probe = some c ∧ (∀ it ∈ s.stream, it.tag ≠ c) ∧
      p.readTimer s.mem = (List.range p.N).map fun t => s.cycles c t % 2 ^ 64 := by
  have hleads := h.leads
  rw [htodo] at hleads
  obtain ⟨⟨c, hc, hle⟩, -⟩ := hleads.uncons (by simp)
  have hlater : ∀ it ∈ s.stream, c < it.tag := fun it hit =>
    lt_of_le_of_lt hle ((h.ok.stream.fired _ hfired).2 it hit)
  refine ⟨c, hc, fun it hit => (hlater it hit).ne', List.map_congr_left fun t ht => ?_⟩
  rcases (h.ok.rows c hc).2 with ⟨-, hrows⟩ | ⟨hclearing, -⟩
  · have hrow := hrows t (List.mem_range.1 ht)
    simpa only [SchedPlane.timerView, if_pos (List.mem_range.1 ht)] using hrow
  · -- a fired event has left no clear behind
    obtain ⟨it, hit, htag⟩ := hclearing.old
    exact absurd (hlater it hit) (not_lt.2 htag.le)

/-! ## From the creation of the plane -/

/-- The process once the scheduler's init hook has created the plane. -/
def Pipeline.boot (p : SchedPlane) (m : ByteMem) (R : ℤ) : Pipeline K :=
  { host := ⟨{ clcR := R }, some p⟩, mem := m }

omit [Zero K] in
theorem timerChannelOk_create {cfg : PluginConfig K} (halloc : cfg.AllocOk) {w : List MemOp}
    {m : ByteMem} (hcreate : createPlane cfg = some (p, w)) : p.TimerChannelOk (applyOps m w) := by
  have hof := (planeOf_create (m := m) halloc hcreate).1
  intro e he
  rw [hof.timerDev] at he
  obtain ⟨-, hpos, hlt⟩ := halloc.timer e he
  refine ⟨hpos.ne', ?_⟩
  obtain ⟨⟨p₀, w₀⟩, h₀, heq⟩ := Option.map_eq_some_iff.1 hcreate
  obtain ⟨-, hsame, -⟩ := fresh_create (m := m) h₀
  rw [Option.mem_def.1 he] at heq
  have hword : ((applyOps m w₀).store e (List.replicate (8 * p₀.N) 0)
      |>.store (p₀.base + timerOff) (ByteMem.toBytes 8 e)).load64 (p₀.base + timerOff) = e :=
    ByteMem.load_store_toBytes_of_lt _ _ 8 hlt
  cases ho : cfg.orderDev with
  | none =>
      simp only [timerChannel, ho, orderChannel, List.append_nil] at heq
      cases heq
      rw [SchedPlane.applyOps_append]
      exact hword
  | some d =>
      simp only [timerChannel, ho, orderChannel] at heq
      cases heq
      obtain ⟨hout, -, -⟩ := halloc.order d ho
      have hbase : p₀.base = cfg.base := hsame.base
      have hN : p₀.N = cfg.maxTasks := hsame.N
      rw [SchedPlane.applyOps_append, SchedPlane.applyOps_append]
      refine (SchedPlane.load64_applyOps fun o hmem => ?_).trans hword
      simp only [SchedPlane.useDeviceOrder, SchedPlane.useDeviceTimer, List.mem_cons,
        List.not_mem_nil, or_false] at hmem
      simp only [OutsideArena, arenaBytes] at hout
      rcases hmem with rfl | rfl
      · simp only [SchedPlane.SparesWord, ByteMem.length_wordsToBytes, List.length_range, hN,
          SchedPlane.useDeviceOrder, SchedPlane.useDeviceTimer, timerOff, hbase]
        omega
      · simp only [SchedPlane.SparesWord, ByteMem.length_toBytes, orderOff,
          SchedPlane.useDeviceOrder, SchedPlane.useDeviceTimer, timerOff]
        omega

omit [Zero K] in
theorem Pipeline.Invariant.boot {cfg : PluginConfig K} (halloc : cfg.AllocOk) {w : List MemOp}
    (hcreate : createPlane cfg = some (p, w)) (m : ByteMem) (R : ℤ) :
    (Pipeline.boot p (applyOps m w) R : Pipeline K).Invariant p where
  ok := by
    refine ⟨⟨p, rfl, .refl p⟩, timerChannelOk_create halloc hcreate, ?_, fun c hc => ?_⟩
    · exact ⟨by simp [Pipeline.boot], by simp [Pipeline.boot], List.Pairwise.nil,
        by simp [Pipeline.boot], fun _ _ _ => rfl, by simp [Pipeline.boot]⟩
    · exact absurd hc (by simp [Pipeline.boot])
  leads := by
    refine .quiet ⟨fun c hc => absurd hc (by simp [Pipeline.gate, Pipeline.boot]), fun hp => ?_⟩ ?_
    · exact absurd hp Bool.false_ne_true
    · exact fun ha => absurd ha Bool.false_ne_true

/-- **A probe samples exactly one step**, in every run without races: when its event has fired and its
    rows are about to be folded, none of its launches is left on the stream, and each row holds what
    they spent on the row's task, modulo the row's 64 bits. -/
theorem probe_samples_step (cfg : PluginConfig K) (halloc : cfg.AllocOk) (p : SchedPlane)
    (w : List MemOp) (hcreate : createPlane cfg = some (p, w)) (m : ByteMem) (R : ℤ) (C : Config)
    (hC : p.BakesTimer C) (s : Pipeline K)
    (hrun : Reaches (TimelyStep C cfg p) (Pipeline.boot p (applyOps m w) R) s)
    (rest : List (HookAct K)) (htodo : s.todo = .foldProbe :: rest)
    (hfired : s.pendingEvent ∈ s.fired) :
    ∃ c, s.probe = some c ∧ (∀ it ∈ s.stream, it.tag ≠ c) ∧
      p.readTimer s.mem = (List.range p.N).map fun t => s.cycles c t % 2 ^ 64 := by
  have hof := (planeOf_create (m := m) halloc hcreate).1
  have hlaid : p.Laid := hof.laid halloc
  have hbase : 0 < p.base := by
    rw [hof.base]
    exact halloc.base_pos
  have hs : s.Invariant p := hrun.invariant (fun _ _ hs hstep => hs.step hlaid hbase hC hstep)
    (.boot halloc hcreate m R)
  exact hs.fold htodo hfired

/-! ## Two runs -/

/-- The choices of a run: a hook call, the hook's next action, a launch, or the device's next step for
    the first CTA of the stream's head, which returns after `n` cycles. -/
inductive Move (K : Type)
  | call (c : HookCall K)
  | act
  | launch (tasks : List ℕ)
  | device (n : ℕ)

def Pipeline.device (C : Config) (R : RtSlots) (s : Pipeline K) (n : ℕ) : Option (Pipeline K) :=
  match s.stream with
  | ⟨k, .launch (⟨t, .before⟩ :: post)⟩ :: rest =>
      some { s with stream := ⟨k, .launch (⟨t, .inside (readTimerOff R s.mem)⟩ :: post)⟩ :: rest }
  | ⟨k, .launch (⟨t, .inside off⟩ :: post)⟩ :: rest =>
      some { s with
        stream := ⟨k, .launch (⟨t, .returned⟩ :: post)⟩ :: rest
        mem := emitTimer C R s.mem off t n
        cycles := spend s.cycles k t n }
  | ⟨_, .launch [⟨_, .returned⟩]⟩ :: rest => some { s with stream := rest }
  | ⟨_, .write o⟩ :: rest => some { s with stream := rest, mem := o.apply s.mem }
  | ⟨k, .event⟩ :: rest => some { s with stream := rest, fired := k :: s.fired }
  | _ => none

omit [Zero K] in
theorem Pipeline.device_sound {R : RtSlots} {n : ℕ} (h : s.device C R n = some s') :
    DeviceStep C R s s' ∧ s'.todo = s.todo := by
  unfold Pipeline.device at h
  split at h
  · next hs =>
      cases h
      exact ⟨.enter (show s.stream = ⟨_, .launch ([] ++ _ :: _)⟩ :: _ from hs), rfl⟩
  · next hs =>
      cases h
      exact ⟨.exit (show s.stream = ⟨_, .launch ([] ++ _ :: _)⟩ :: _ from hs) n, rfl⟩
  · next hs =>
      cases h
      exact ⟨.retire hs (by simp), rfl⟩
  · next hs =>
      cases h
      exact ⟨.write hs, rfl⟩
  · next hs =>
      cases h
      exact ⟨.event hs, rfl⟩
  · exact absurd h (by simp)

/-- The state after a move, if it is possible. -/
def Pipeline.move (C : Config) (R : RtSlots) (cfg : PluginConfig K) (s : Pipeline K) :
    Move K → Option (Pipeline K)
  | .call (.begin b) =>
      if s.todo.isEmpty && !s.inStep then
        some { s with todo := s.host.hook cfg (.begin b), inStep := true }
      else none
  | .call .finish =>
      if s.todo.isEmpty && s.inStep then
        some { s with todo := s.host.hook cfg .finish, inStep := false }
      else none
  | .act =>
      match s.todo with
      | [] => none
      | a :: rest =>
          if s.Ready a then
            (s.host.act cfg a).map fun (h, w) => (s.wrote rest h w).mark a
          else none
  | .launch tasks =>
      if s.todo.isEmpty then
        some { s with
          stream := s.stream ++ [⟨s.clock, .launch (tasks.map fun t => { task := t })⟩] }
      else none
  | .device n => s.device C R n

theorem Pipeline.move_sound {R : RtSlots} {cfg : PluginConfig K} {mv : Move K}
    (h : s.move C R cfg mv = some s') : PipelineStep C R cfg s s' := by
  cases mv with
  | call c =>
      cases c with
      | begin b =>
          simp only [Pipeline.move, Option.ite_none_right_eq_some, Bool.and_eq_true,
            List.isEmpty_iff, Bool.not_eq_true'] at h
          obtain ⟨⟨htodo, hin⟩, heq⟩ := h
          cases heq
          exact .host (.begin b htodo hin)
      | finish =>
          simp only [Pipeline.move, Option.ite_none_right_eq_some, Bool.and_eq_true,
            List.isEmpty_iff] at h
          obtain ⟨⟨htodo, hin⟩, heq⟩ := h
          cases heq
          exact .host (.finish htodo hin)
  | act =>
      unfold Pipeline.move at h
      cases htodo : s.todo with
      | nil =>
          rw [htodo] at h
          exact absurd h (by simp)
      | cons a rest =>
          rw [htodo] at h
          simp only [Option.ite_none_right_eq_some, Option.map_eq_some_iff] at h
          obtain ⟨hready, ⟨h', w⟩, hact, heq⟩ := h
          cases heq
          exact .host (.act htodo hact hready)
  | launch tasks =>
      simp only [Pipeline.move, Option.ite_none_right_eq_some, List.isEmpty_iff] at h
      obtain ⟨htodo, heq⟩ := h
      cases heq
      exact .host (.launch tasks htodo)
  | device n => exact .device (Pipeline.device_sound h).1

/-- A move that is no racing action. -/
def Pipeline.calmMove (C : Config) (cfg : PluginConfig K) (p : SchedPlane) (s : Pipeline K)
    (mv : Move K) : Option (Pipeline K) :=
  match mv with
  | .act => if s.Racing p then none else s.move C p.slots cfg .act
  | mv => s.move C p.slots cfg mv

/-- A hook starts only when no action is left, and a launch and the device leave the hook alone. -/
theorem Pipeline.move_todo {R : RtSlots} {cfg : PluginConfig K} {mv : Move K} (hmv : mv ≠ .act)
    (h : s.move C R cfg mv = some s') : s'.todo = s.todo ∨ s.todo = [] := by
  cases mv with
  | call c =>
      refine Or.inr ?_
      cases c <;>
        simp only [Pipeline.move, Option.ite_none_right_eq_some, Bool.and_eq_true,
          List.isEmpty_iff] at h <;>
        exact h.1.1
  | act => exact absurd rfl hmv
  | launch tasks =>
      simp only [Pipeline.move, Option.ite_none_right_eq_some, List.isEmpty_iff] at h
      exact Or.inr h.1
  | device n => exact Or.inl (Pipeline.device_sound h).2

theorem Pipeline.calmMove_sound {cfg : PluginConfig K} {mv : Move K}
    (h : s.calmMove C cfg p mv = some s') : TimelyStep C cfg p s s' := by
  unfold Pipeline.calmMove at h
  split at h
  · simp only [Option.ite_none_left_eq_some] at h
    exact ⟨Pipeline.move_sound h.2, fun _ => h.1⟩
  · next hact =>
      refine ⟨Pipeline.move_sound h, fun hne => ?_⟩
      rcases Pipeline.move_todo hact h with htodo | htodo
      · exact absurd htodo hne
      · simp only [Pipeline.Racing, htodo, not_false_eq_true]

/-- The plain weave compiled against the plane of `planConfig`. -/
def probeKernel : Config := { maxTasks := 3 }

theorem probeKernel_bakes {w : List MemOp} (hcreate : createPlane planConfig = some (p, w)) :
    p.BakesTimer probeKernel := by
  have hof := (planeOf_create (m := ByteMem.zeroed) planConfig_allocOk hcreate).1
  exact ⟨rfl, hof.N.symm, by rw [hof.timerDev]; rfl⟩

/-- A step with one tile is probed: its begin hook, and the launch of one CTA. -/
def probeBegin : List (Move ℕ) :=
  .call (.begin (unsplitBatch [1])) :: List.replicate 12 .act ++ [.launch [0]]

/-- The step's end hook. -/
def probeEnd : List (Move ℕ) := [.call .finish, .act, .act, .act, .act]

/-- The next begin hook, up to the fold. -/
def probeFold : List (Move ℕ) := [.call (.begin (unsplitBatch [1])), .act, .act, .act]

/-- What a run of moves from the boot ends with: whether a fold is next, whether the event has fired,
    the rows, and what the probe's launches spent on task 0. -/
def probeOutcome (step : SchedPlane → Pipeline ℕ → Move ℕ → Option (Pipeline ℕ))
    (mvs : List (Move ℕ)) : Option (Option (HookAct ℕ) × Bool × List ℕ × Option ℕ) :=
  (createPlane planConfig).bind fun (p, w) =>
    (mvs.foldlM (step p) (Pipeline.boot p (applyOps ByteMem.zeroed w) 0)).map fun s =>
      (s.todo.head?, decide (s.pendingEvent ∈ s.fired), p.readTimer s.mem,
        s.probe.map fun c => s.cycles c 0)

/-- A run that ends before a fold. -/
theorem exists_run_of_outcome (step : SchedPlane → Pipeline ℕ → Move ℕ → Option (Pipeline ℕ))
    {r : SchedPlane → Pipeline ℕ → Pipeline ℕ → Prop}
    (hstep : ∀ p s mv s', step p s mv = some s' → r p s s') (mvs : List (Move ℕ)) (rows : List ℕ)
    (spent : Option ℕ) (h : probeOutcome step mvs = some (some .foldProbe, true, rows, spent)) :
    ∃ p w s rest, createPlane planConfig = some (p, w) ∧
      Reaches (r p) (Pipeline.boot p (applyOps ByteMem.zeroed w) 0) s ∧ s.todo = .foldProbe :: rest ∧
      s.pendingEvent ∈ s.fired ∧ p.readTimer s.mem = rows ∧
      (s.probe.map fun c => s.cycles c 0) = spent := by
  obtain ⟨⟨p, w⟩, hcreate, hrun⟩ := Option.bind_eq_some_iff.1 h
  obtain ⟨s, hmoves, heq⟩ := Option.map_eq_some_iff.1 hrun
  simp only [Prod.mk.injEq, decide_eq_true_eq] at heq
  obtain ⟨hhead, hfired, hrows, hspent⟩ := heq
  obtain ⟨rest, hrest⟩ := List.head?_eq_some_iff.1 hhead
  exact ⟨p, w, s, rest, hcreate, .of_foldlM (hstep p) hmoves, hrest, hfired, hrows, hspent⟩

/-- The CTA enters before the end hook's push: its 5 cycles are sampled. -/
theorem probe_samples_step_early : ∃ p w s rest, createPlane planConfig = some (p, w) ∧
    Reaches (TimelyStep probeKernel planConfig p) (Pipeline.boot p (applyOps ByteMem.zeroed w) 0) s ∧
    s.todo = .foldProbe :: rest ∧ s.pendingEvent ∈ s.fired ∧ p.readTimer s.mem = [5, 0, 0] ∧
    ∃ c, s.probe = some c ∧ (∀ it ∈ s.stream, it.tag ≠ c) ∧
      p.readTimer s.mem = (List.range p.N).map fun t => s.cycles c t % 2 ^ 64 := by
  obtain ⟨p, w, s, rest, hcreate, hrun, htodo, hfired, hrows, -⟩ :=
    exists_run_of_outcome (fun p => Pipeline.calmMove probeKernel planConfig p)
      (fun p s mv s' h => Pipeline.calmMove_sound h)
      (probeBegin ++ [.device 0] ++ probeEnd ++ [.device 5, .device 0, .device 0] ++ probeFold)
      [5, 0, 0] (some 5) (by decide +kernel)
  exact ⟨p, w, s, rest, hcreate, hrun, htodo, hfired, hrows,
    probe_samples_step planConfig planConfig_allocOk p w hcreate ByteMem.zeroed 0 probeKernel
      (probeKernel_bakes hcreate) s hrun rest htodo hfired⟩

/-- The CTA enters after the end hook's push of timer-off: its 5 cycles are missing from the rows. -/
theorem probe_misses_late_entry : ∃ p w s rest, createPlane planConfig = some (p, w) ∧
    p.BakesTimer probeKernel ∧
    Reaches (PipelineStep probeKernel p.slots planConfig)
      (Pipeline.boot p (applyOps ByteMem.zeroed w) 0) s ∧
    s.todo = .foldProbe :: rest ∧ s.pendingEvent ∈ s.fired ∧ p.readTimer s.mem = [0, 0, 0] ∧
    ¬ ∃ c, s.probe = some c ∧ (∀ it ∈ s.stream, it.tag ≠ c) ∧
      p.readTimer s.mem = (List.range p.N).map fun t => s.cycles c t % 2 ^ 64 := by
  obtain ⟨p, w, s, rest, hcreate, hrun, htodo, hfired, hrows, hspent⟩ :=
    exists_run_of_outcome (fun p => Pipeline.move probeKernel p.slots planConfig)
      (fun p s mv s' h => Pipeline.move_sound h)
      (probeBegin ++ probeEnd ++ [.device 0, .device 5, .device 0, .device 0] ++ probeFold)
      [0, 0, 0] (some 5) (by decide +kernel)
  refine ⟨p, w, s, rest, hcreate, probeKernel_bakes hcreate, hrun, htodo, hfired, hrows, ?_⟩
  rintro ⟨c, hc, -, hread⟩
  have hN : p.N = 3 := (planeOf_create (m := ByteMem.zeroed) planConfig_allocOk hcreate).1.N
  have hfive : s.cycles c 0 = 5 := by simpa [hc] using hspent
  rw [hrows, hN] at hread
  have hhead : some 0 = some (s.cycles c 0 % 2 ^ 64) := congrArg List.head? hread
  rw [hfive] at hhead
  exact absurd hhead (by decide)

/-- Work already on the stream when the host-mapped rows are cleared: its CTA enters with the timer on
    and adds its 7 cycles to the probe's 5. -/
example : probeOutcome (fun p => Pipeline.move probeKernel p.slots planConfig)
    ([.launch [0]] ++ probeBegin ++ [.device 0, .device 7, .device 0, .device 0] ++ probeEnd
      ++ [.device 5, .device 0, .device 0] ++ probeFold)
      = some (some .foldProbe, true, [12, 0, 0], some 5) := by decide +kernel

end SchedPass
