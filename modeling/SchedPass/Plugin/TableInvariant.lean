import SchedPass.Lib.Runs
import SchedPass.Plane.Consistent
import SchedPass.Plugin.Hooks

set_option autoImplicit false

/-! # The serving plane's table invariant

On views a hook is a short list of table and stamp updates (`acts_onView`). Each branch of the begin
hook keeps the plane consistent, except that an install for zero tiles stamps 0 over whatever the
table holds (`EmptyInstall`); so along every run of hook calls the published plane is consistent
exactly as long as no such install happens. -/

namespace SchedPass

/-! ## Hooks on views -/

variable {K : Type}

/-- An action's effect on the order memo and the view. -/
def HookAct.onView (N : ℕ) (s : Option ℕ × PlaneView) : HookAct K → Option ℕ × PlaneView
  | .setOrderN n => (n, s.2)
  | .plane op => (s.1, s.2.exec N op)
  | _ => s

variable {cfg : PluginConfig K} {h h' : Host K} {p : SchedPlane} {m : ByteMem} {w : List MemOp}

theorem acts_cons {a : HookAct K} {as : List (HookAct K)} (hrun : h.acts cfg (a :: as) = some (h', w)) :
    ∃ h₁ w₁ w₂, h.act cfg a = some (h₁, w₁) ∧ h₁.acts cfg as = some (h', w₂) ∧ w = w₁ ++ w₂ := by
  simp only [Host.acts, Option.bind_eq_bind, Option.bind_eq_some_iff] at hrun
  obtain ⟨⟨h₁, w₁⟩, ha, ⟨h₂, w₂⟩, has, heq⟩ := hrun
  cases heq
  exact ⟨h₁, w₁, w₂, ha, has, rfl⟩

/-- Actions that end in `raise` do not return. -/
theorem acts_raise {as : List (HookAct K)} : h.acts cfg (as ++ [.raise]) ≠ some (h', w) := by
  induction as generalizing h w with
  | nil => simp [Host.acts, Host.act]
  | cons a as ih =>
      intro hrun
      obtain ⟨h₁, w₁, w₂, -, has, -⟩ := acts_cons hrun
      exact ih has

/-- From the plane `p` over `m` the host reaches `h'` over `m'`: the layout and the channel are kept,
    and `s'` is the memo with the view. -/
abbrev ActsTo (h' : Host K) (p : SchedPlane) (m m' : ByteMem) (s' : Option ℕ × PlaneView) : Prop :=
  ∃ p', h'.plane = some p' ∧ p.SameLayout p' ∧ (p.ChannelOk m → p'.ChannelOk m') ∧
    (h'.plugin.orderN, p'.view m') = s'

theorem act_onView (hlaid : p.Laid) (hp : h.plane = some p) {a : HookAct K}
    (hrun : h.act cfg a = some (h', w)) :
    ActsTo h' p m (applyOps m w) (a.onView p.N (h.plugin.orderN, p.view m)) := by
  cases a with
  | plane op =>
      simp only [Host.act, hp, Option.bind_eq_bind, Option.bind_some, Option.bind_eq_some_iff] at hrun
      obtain ⟨⟨p', w'⟩, hexec, heq⟩ := hrun
      cases heq
      refine ⟨p', rfl, SchedPlane.sameLayout_exec hexec, ?_, ?_⟩
      · exact fun hchan => SchedPlane.channelOk_exec hlaid hchan hexec
      · rw [SchedPlane.view_exec hlaid hexec]
        rfl
  | createPlane =>
      simp only [Host.act, hp] at hrun
      cases hrun
      exact ⟨p, hp, .refl p, id, rfl⟩
  | raise => exact absurd hrun (by simp [Host.act])
  | _ =>
      cases hrun
      exact ⟨p, hp, .refl p, id, rfl⟩

theorem acts_onView (hlaid : p.Laid) (hp : h.plane = some p) {as : List (HookAct K)}
    (hrun : h.acts cfg as = some (h', w)) :
    ActsTo h' p m (applyOps m w)
      (as.foldl (HookAct.onView p.N) (h.plugin.orderN, p.view m)) := by
  induction as generalizing h p m w with
  | nil =>
      cases hrun
      exact ⟨p, hp, .refl p, id, rfl⟩
  | cons a as ih =>
      obtain ⟨h₁, w₁, w₂, ha, has, rfl⟩ := acts_cons hrun
      obtain ⟨p₁, hp₁, hsame, hchan, hview⟩ := act_onView (m := m) hlaid hp ha
      obtain ⟨p₂, hp₂, hsame₂, hchan₂, hview₂⟩ := ih (m := applyOps m w₁) (hlaid.congr hsame) hp₁ has
      rw [SchedPlane.applyOps_append]
      refine ⟨p₂, hp₂, hsame.trans hsame₂, fun hc => hchan₂ (hchan hc), ?_⟩
      rw [hview₂, hview, hsame.N, List.foldl_cons]

/-! ## A begin hook on views -/

/-- Actions that touch neither the memo nor the view. -/
theorem foldl_onView_inert {N : ℕ} {as : List (HookAct K)} {s : Option ℕ × PlaneView}
    (hinert : ∀ a ∈ as, a.onView N s = s) : as.foldl (HookAct.onView N) s = s := by
  induction as with
  | nil => rfl
  | cons a as ih =>
      rw [List.foldl_cons, hinert a List.mem_cons_self]
      exact ih fun b hb => hinert b (List.mem_cons_of_mem a hb)

theorem foldl_consumeActs {N : ℕ} {st : PluginState K} {b : Batch K} {s : Option ℕ × PlaneView} :
    (consumeActs st b).foldl (HookAct.onView N) s = s := by
  unfold consumeActs
  split
  · rfl
  · split
    · rfl
    · split <;> rfl

theorem foldl_hintActs {N : ℕ} {b : Batch K} {n : ℕ} {s : Option ℕ × PlaneView} :
    (hintActs b n).foldl (HookAct.onView N) s = s := by
  unfold hintActs
  split
  · rfl
  · refine foldl_onView_inert fun a ha => ?_
    obtain ⟨k, -, rfl⟩ := List.mem_map.1 ha
    rfl

variable [Zero K]

/-- The hook's effect, branch by branch. -/
def planOnView (cfg : PluginConfig K) (st : PluginState K) (b : Batch K) (costs : List K) (n : ℕ)
    (N : ℕ) (s : Option ℕ × PlaneView) : Option ℕ × PlaneView :=
  let published : Option ℕ × PlaneView := (s.1, { s.2 with stamp := s.2.mirror })
  let installed (R : ℤ) : Option ℕ × PlaneView :=
    (some n, s.2.installed N (regionOrder cfg.float cfg.blockSum cfg.argsort cfg.lptBlock costs R) n)
  if cfg.observeOnly then published
  else match branch cfg st b n with
    | .arm => installed (resolveR cfg st b)
    | .retire =>
        if st.orderN.isSome then (none, s.2.installed N (List.range cfg.maxTasks) 0) else published
    | .queued => installed 0
    | .keep => published

theorem foldl_planActs {N : ℕ} {st : PluginState K} {b : Batch K} {reqs : List (Req K)}
    {costs : List K} {s : Option ℕ × PlaneView} :
    (planActs cfg st b reqs costs).foldl (HookAct.onView N) s
      = planOnView cfg st b costs (b.ntiles reqs) N s := by
  have hclear : ∀ s : Option ℕ × PlaneView, (if isProbe cfg st then
      [(.plane .clearTimer : HookAct K)] else []).foldl (HookAct.onView N) s = s := by
    intro s
    split <;> rfl
  unfold planActs planOnView
  simp only [List.foldl_append, hclear]
  by_cases hobs : cfg.observeOnly = true
  · simp only [hobs, if_true]
    rfl
  · simp only [hobs, Bool.false_eq_true, if_false, List.foldl_append, foldl_hintActs, branchActs]
    cases branch cfg st b (b.ntiles reqs) with
    | arm => rfl
    | retire =>
        by_cases hn : st.orderN.isSome = true
        · simp only [hn, if_true]
          rfl
        · simp only [hn, Bool.false_eq_true, if_false]
          rfl
    | queued => rfl
    | keep => rfl

/-! ## What the branches install -/

omit [Zero K] in
theorem Batch.tileCosts_length {b : Batch K} {reqs : List (Req K)} {costs : List K}
    (h : b.tileCosts reqs = some costs) : costs.length = b.ntiles reqs := by
  unfold Batch.tileCosts at h
  unfold Batch.ntiles
  cases ht : b.tileToReq with
  | none =>
      simp only [ht] at h ⊢
      cases h
      exact List.length_map _
  | some ti =>
      simp only [ht] at h ⊢
      clear ht
      induction ti generalizing costs with
      | nil =>
          cases h
          rfl
      | cons i ti ih =>
          simp only [List.mapM_cons, Option.bind_eq_bind, Option.bind_eq_some_iff] at h
          obtain ⟨c, -, cs, hcs, heq⟩ := h
          cases heq
          rw [List.length_cons, List.length_cons, ih hcs]

/-! ## The invariant -/

/-- The order memo `o` and the view between hooks: published and consistent, and with no order
    remembered the table is the identity. -/
structure TableOk (N : ℕ) (o : Option ℕ) (v : PlaneView) : Prop where
  consistent : v.Consistent N
  published : v.mirror = v.stamp
  retired : o = none → v.stamp = 0 ∧ ∀ k < N, v.table k = k

/-- An install branch is taken for zero tiles while the table is not the identity. -/
def EmptyInstallOn (cfg : PluginConfig K) (st : PluginState K) (b : Batch K) (n : ℕ) (N : ℕ)
    (v : PlaneView) : Prop :=
  cfg.observeOnly = false ∧ n = 0 ∧
    (branch cfg st b n = .arm ∨ branch cfg st b n = .queued) ∧ ∃ k < N, v.table k ≠ k

variable {st : PluginState K} {b : Batch K} {costs : List K} {n N : ℕ} {v : PlaneView}

theorem TableOk.publish {o : Option ℕ} (h : TableOk N o v) :
    TableOk N o { v with stamp := v.mirror } := by
  have heq : ({ v with stamp := v.mirror } : PlaneView) = v := by
    ext1
    · rfl
    · exact h.published
    · rfl
  rwa [heq]

theorem TableOk.install (hsort : SortsIndices cfg.argsort) (hN : N ≤ maxTasksLimit)
    (hlen : costs.length = n) (hn : n ≤ N) (hempty : n = 0 → ∀ k < N, v.table k = k) (R : ℤ) :
    TableOk N (some n)
      (v.installed N (regionOrder cfg.float cfg.blockSum cfg.argsort cfg.lptBlock costs R) n) := by
  have hperm := regionOrder_perm hsort cfg.float cfg.blockSum cfg.lptBlock costs R
  rw [hlen] at hperm
  refine ⟨?_, rfl, fun hnone => absurd hnone (Option.some_ne_none n)⟩
  -- stamp 0 promises the identity, which an empty install does not write
  rcases Nat.eq_zero_or_pos n with rfl | hpos
  · rw [hperm.eq_nil]
    exact (consistent_installed_nil_iff v).2 (hempty rfl)
  · exact consistent_installed hN v hperm hpos hn

/-- Every branch keeps the invariant unless it is an empty install. -/
theorem TableOk.plan (hsort : SortsIndices cfg.argsort) (hN : cfg.maxTasks = N)
    (hcap : N ≤ maxTasksLimit) (hlen : costs.length = n) (hn : n ≤ N) (h : TableOk N st.orderN v)
    (hquiet : ¬ EmptyInstallOn cfg st b n N v) :
    TableOk N (planOnView cfg st b costs n N (st.orderN, v)).1
      (planOnView cfg st b costs n N (st.orderN, v)).2 := by
  unfold planOnView
  by_cases hobs : cfg.observeOnly = true
  · simp only [hobs, if_true]
    exact h.publish
  · have hobs' : cfg.observeOnly = false := by simpa using hobs
    have hempty : branch cfg st b n = .arm ∨ branch cfg st b n = .queued →
        n = 0 → ∀ k < N, v.table k = k := by
      intro hbr hzero k hk
      by_contra hne
      exact hquiet ⟨hobs', hzero, hbr, k, hk, hne⟩
    simp only [hobs', Bool.false_eq_true, if_false]
    cases hbr : branch cfg st b n with
    | arm => exact .install hsort hcap hlen hn (hempty (Or.inl hbr)) _
    | queued => exact .install hsort hcap hlen hn (hempty (Or.inr hbr)) _
    | keep => exact h.publish
    | retire =>
        dsimp only
        split
        · subst hN
          have hid : ∀ k < cfg.maxTasks,
              (v.installed cfg.maxTasks (List.range cfg.maxTasks) 0).table k = k :=
            fun k hk => installed_range hcap v hk
          exact ⟨Or.inl ⟨rfl, hid⟩, rfl, fun _ => ⟨rfl, hid⟩⟩
        · exact h.publish

/-- An empty install over a table that is not the identity leaves the plane inconsistent. -/
theorem not_consistent_of_emptyInstall (hsort : SortsIndices cfg.argsort) (hlen : costs.length = n)
    {o : Option ℕ} (h : EmptyInstallOn cfg st b n N v) :
    ¬ (planOnView cfg st b costs n N (o, v)).2.Consistent N := by
  obtain ⟨hobs, rfl, hbr, k, hk, hne⟩ := h
  have hnil : ∀ R, regionOrder cfg.float cfg.blockSum cfg.argsort cfg.lptBlock costs R = [] := by
    intro R
    have hperm := regionOrder_perm hsort cfg.float cfg.blockSum cfg.lptBlock costs R
    rw [hlen] at hperm
    exact hperm.eq_nil
  have hbad : ¬ (v.installed N [] 0).Consistent N := fun hc =>
    hne ((consistent_installed_nil_iff v).1 hc k hk)
  unfold planOnView
  simp only [hobs, Bool.false_eq_true, if_false]
  rcases hbr with hbr | hbr
  · simpa only [hbr, hnil] using hbad
  · simpa only [hbr, hnil] using hbad

/-! ## Creating the plane -/

/-- Where the arena and the torch buffers are allocated: apart from one another, at addresses that
    fit a channel word. -/
structure PluginConfig.AllocOk (cfg : PluginConfig K) : Prop where
  base_pos : 0 < cfg.base
  order : ∀ d ∈ cfg.orderDev, OutsideArena cfg.base d (4 * cfg.maxTasks) ∧ 0 < d ∧ d < 2 ^ 64
  timer : ∀ e ∈ cfg.timerDev, OutsideArena cfg.base e (8 * cfg.maxTasks) ∧ 0 < e ∧ e < 2 ^ 64
  apart : ∀ d ∈ cfg.orderDev, ∀ e ∈ cfg.timerDev,
    d + 4 * cfg.maxTasks ≤ e ∨ e + 8 * cfg.maxTasks ≤ d

/-- The plane has the configuration's layout. -/
structure PlaneOf (cfg : PluginConfig K) (p : SchedPlane) (m : ByteMem) : Prop where
  N : p.N = cfg.maxTasks
  base : p.base = cfg.base
  timerDev : p.timerDev = cfg.timerDev
  orderDev : p.orderDev = cfg.orderDev
  cap : cfg.maxTasks ≤ maxTasksLimit
  channel : p.ChannelOk m

omit [Zero K] in
theorem PlaneOf.laid (h : PlaneOf cfg p m) (halloc : cfg.AllocOk) : p.Laid := by
  constructor
  · rw [h.N]
    exact h.cap
  · rw [h.N, h.base, h.orderDev]
    exact fun d hd => (halloc.order d hd).1
  · rw [h.N, h.base, h.timerDev]
    exact fun e he => (halloc.timer e he).1
  · rw [h.N, h.orderDev, h.timerDev]
    exact halloc.apart

theorem PlaneView.Fresh.tableOk (h : v.Fresh N) (o : Option ℕ) : TableOk N o v :=
  ⟨Or.inl ⟨h.stamp, h.table⟩, h.mirror.trans h.stamp.symm, fun _ => ⟨h.stamp, h.table⟩⟩

omit [Zero K] in
/-- The timer channel, on a plane whose channels are the arena's. -/
theorem planeOf_timerChannel (halloc : cfg.AllocOk)
    (h : PlaneOf { cfg with timerDev := none, orderDev := none } p m)
    (hfresh : (p.view m).Fresh cfg.maxTasks) :
    PlaneOf { cfg with orderDev := none } (timerChannel p cfg.timerDev).1
        (applyOps m (timerChannel p cfg.timerDev).2) ∧
      ((timerChannel p cfg.timerDev).1.view (applyOps m (timerChannel p cfg.timerDev).2)).Fresh cfg.maxTasks := by
  have horder : p.orderDev = none := h.orderDev
  have hsame : (timerChannel p cfg.timerDev).1 = { p with timerDev := cfg.timerDev } := by
    cases ht : cfg.timerDev with
    | none => rw [timerChannel, ← show p.timerDev = none from h.timerDev]
    | some e => rfl
  constructor
  · rw [hsame]
    exact ⟨h.N, h.base, rfl, horder, h.cap, by simp [SchedPlane.ChannelOk, horder]⟩
  · cases ht : cfg.timerDev with
    | none => exact hfresh
    | some e =>
        have hlaid : p.Laid :=
          h.laid ⟨halloc.base_pos, by rintro _ ⟨⟩, by rintro _ ⟨⟩, by rintro _ ⟨⟩⟩
        have hout := (halloc.timer e ht).1
        rw [← show p.N = cfg.maxTasks from h.N, ← show p.base = cfg.base from h.base] at hout
        exact fresh_useDeviceTimer hlaid horder hout hfresh

omit [Zero K] in
/-- The order channel behind it. -/
theorem planeOf_orderChannel (halloc : cfg.AllocOk) (h : PlaneOf { cfg with orderDev := none } p m)
    (hfresh : (p.view m).Fresh cfg.maxTasks) :
    PlaneOf cfg (orderChannel p cfg.orderDev).1 (applyOps m (orderChannel p cfg.orderDev).2) ∧
      ((orderChannel p cfg.orderDev).1.view (applyOps m (orderChannel p cfg.orderDev).2)).Fresh cfg.maxTasks := by
  have hN : p.N = cfg.maxTasks := h.N
  have hbase : p.base = cfg.base := h.base
  cases ho : cfg.orderDev with
  | none => exact ⟨⟨hN, hbase, h.timerDev, h.orderDev.trans ho.symm, h.cap, h.channel⟩, hfresh⟩
  | some d =>
      have hlaid : p.Laid :=
        h.laid ⟨halloc.base_pos, by rintro _ ⟨⟩, halloc.timer, by rintro _ ⟨⟩⟩
      obtain ⟨hout, -, hlt⟩ := halloc.order d ho
      rw [← hN, ← hbase] at hout
      rw [← hN] at hfresh ⊢
      obtain ⟨hfresh', hchannel⟩ := fresh_useDeviceOrder hlaid hout hlt hfresh
      exact ⟨⟨hN, hbase, h.timerDev, ho.symm, h.cap, hchannel⟩, hfresh'⟩

omit [Zero K] in
theorem planeOf_create (halloc : cfg.AllocOk) (hcreate : createPlane cfg = some (p, w)) :
    PlaneOf cfg p (applyOps m w) ∧ (p.view (applyOps m w)).Fresh cfg.maxTasks := by
  obtain ⟨⟨p₀, w₀⟩, h₀, heq⟩ := Option.map_eq_some_iff.1 hcreate
  obtain ⟨hcap, ⟨hN, hbase, htimer, horder⟩, hfresh⟩ := fresh_create (m := m) h₀
  have hplane : PlaneOf { cfg with timerDev := none, orderDev := none } p₀ (applyOps m w₀) := by
    have horder : p₀.orderDev = none := horder
    exact ⟨hN, hbase, htimer, horder, hcap, by simp [SchedPlane.ChannelOk, horder]⟩
  obtain ⟨hplane₁, hfresh₁⟩ := planeOf_timerChannel halloc hplane hfresh
  obtain ⟨hplane₂, hfresh₂⟩ := planeOf_orderChannel halloc hplane₁ hfresh₁
  cases heq
  rw [SchedPlane.applyOps_append, SchedPlane.applyOps_append]
  exact ⟨hplane₂, hfresh₂⟩

/-! ## Runs of hook calls -/

/-- The serving process: the host side and the memory that kernels read. -/
structure Process (K : Type) where
  host : Host K
  mem : ByteMem

/-- A hook call that returns, with no launch in flight. -/
def Process.call (cfg : PluginConfig K) (s : Process K) (c : HookCall K) : Option (Process K) :=
  (s.host.acts cfg (s.host.hook cfg c)).map fun (h, w) => ⟨h, applyOps s.mem w⟩

/-- The process after import, with `SCHED_CLC_R` = `R`. -/
def Process.boot (m : ByteMem) (R : ℤ) : Process K := ⟨⟨{ clcR := R }, none⟩, m⟩

/-- The invariant between hooks. -/
structure ProcessOk (cfg : PluginConfig K) (s : Process K) : Prop where
  unborn : s.host.plane = none → s.host.plugin.orderN = none
  born : ∀ p, s.host.plane = some p →
    PlaneOf cfg p s.mem ∧ TableOk cfg.maxTasks s.host.plugin.orderN (p.view s.mem)

/-- The begin hook of `b` plans an install for zero tiles while the table is not the identity. -/
def EmptyInstall (cfg : PluginConfig K) (s : Process K) (b : Batch K) : Prop :=
  ∃ reqs p, b.reqs = some reqs ∧ onCadence cfg s.host.plugin = true ∧ s.host.plane = some p ∧
    EmptyInstallOn cfg s.host.plugin b (b.ntiles reqs) cfg.maxTasks (p.view s.mem)

variable {s s' : Process K}

omit [Zero K] in
theorem ProcessOk.boot (cfg : PluginConfig K) (m : ByteMem) (R : ℤ) :
    ProcessOk cfg (Process.boot m R) :=
  ⟨fun _ => rfl, fun _ hp => by simp [Process.boot] at hp⟩

omit [Zero K] in
/-- Running actions in a process with a plane. -/
theorem ProcessOk.acts (halloc : cfg.AllocOk) (hs : ProcessOk cfg s) (hp : s.host.plane = some p)
    {as : List (HookAct K)} (hrun : s.host.acts cfg as = some (h', w)) :
    ∃ p', h'.plane = some p' ∧ PlaneOf cfg p' (applyOps s.mem w) ∧
      (h'.plugin.orderN, p'.view (applyOps s.mem w))
        = as.foldl (HookAct.onView cfg.maxTasks) (s.host.plugin.orderN, p.view s.mem) := by
  obtain ⟨hof, -⟩ := hs.born p hp
  obtain ⟨p', hp', hsame, hchan, hview⟩ := acts_onView (m := s.mem) (hof.laid halloc) hp hrun
  rw [hof.N] at hview
  exact ⟨p', hp', ⟨hsame.N.trans hof.N, hsame.base.trans hof.base, hsame.timerDev.trans hof.timerDev,
    hsame.orderDev.trans hof.orderDev, hof.cap, hchan hof.channel⟩, hview⟩

omit [Zero K] in
/-- Behind `createPlane` there is a plane, the one of before or a fresh one. -/
theorem ProcessOk.createPlane (halloc : cfg.AllocOk) (hs : ProcessOk cfg s)
    (hcreate : h.act cfg .createPlane = some (h', w)) (hplane : h.plane = s.host.plane)
    (hmemo : h.plugin.orderN = s.host.plugin.orderN) :
    ∃ p, h'.plane = some p ∧ PlaneOf cfg p (applyOps s.mem w) ∧
      TableOk cfg.maxTasks h'.plugin.orderN (p.view (applyOps s.mem w)) ∧
      h'.plugin.orderN = s.host.plugin.orderN ∧
      ((∃ p₀, s.host.plane = some p₀ ∧ p.view (applyOps s.mem w) = p₀.view s.mem) ∨
        (s.host.plane = none ∧ (p.view (applyOps s.mem w)).Fresh cfg.maxTasks)) := by
  cases hp : s.host.plane with
  | some p₀ =>
      rw [hp] at hplane
      simp only [Host.act, hplane] at hcreate
      cases hcreate
      obtain ⟨hof, hok⟩ := hs.born p₀ hp
      exact ⟨p₀, hplane, hof, hmemo ▸ hok, hmemo, Or.inl ⟨p₀, rfl, rfl⟩⟩
  | none =>
      rw [hp] at hplane
      simp only [Host.act, hplane] at hcreate
      obtain ⟨⟨p, w⟩, hmk, heq⟩ := Option.map_eq_some_iff.1 hcreate
      cases heq
      obtain ⟨hof, hfresh⟩ := planeOf_create (m := s.mem) halloc hmk
      exact ⟨p, rfl, hof, hfresh.tableOk _, hmemo, Or.inr ⟨rfl, hfresh⟩⟩

/-- A begin hook that plans: it starts from the existing plane, or from a fresh one, and changes the
    memo and the view as its branch says. -/
theorem begin_planned (halloc : cfg.AllocOk) (hs : ProcessOk cfg s) {b : Batch K}
    {reqs : List (Req K)} (hreqs : b.reqs = some reqs)
    (hcad : onCadence cfg s.host.plugin = true) (hcall : s.call cfg (.begin b) = some s') :
    ∃ v costs p', ((∃ p, s.host.plane = some p ∧ v = p.view s.mem) ∨
        (s.host.plane = none ∧ v.Fresh cfg.maxTasks)) ∧
      TableOk cfg.maxTasks s.host.plugin.orderN v ∧ b.tileCosts reqs = some costs ∧
      b.ntiles reqs ≤ cfg.maxTasks ∧ cfg.maxTasks ≤ maxTasksLimit ∧ s'.host.plane = some p' ∧
      PlaneOf cfg p' s'.mem ∧
      (s'.host.plugin.orderN, p'.view s'.mem)
        = planOnView cfg s.host.plugin b costs (b.ntiles reqs) cfg.maxTasks
          (s.host.plugin.orderN, v) := by
  obtain ⟨⟨h', w⟩, hrun, heq⟩ := Option.map_eq_some_iff.1 hcall
  cases heq
  simp only [Host.hook, onBatchBegin, hcad, hreqs, Bool.not_true, Bool.false_eq_true, if_false] at hrun
  obtain ⟨h₁, w₁, _, hstep, hrun₁, rfl⟩ := acts_cons hrun
  cases hstep
  obtain ⟨h₂, w₂, w₃, hcreate, hrun₂, rfl⟩ := acts_cons hrun₁
  -- the plane exists from here on
  obtain ⟨p, hp, hof, hok, hmemo, horigin⟩ := hs.createPlane halloc hcreate rfl rfl
  by_cases hcap : b.ntiles reqs > cfg.maxTasks
  · rw [if_pos hcap] at hrun₂
    exact absurd hrun₂ (by simp [Host.acts, Host.act])
  rw [if_neg hcap] at hrun₂
  cases hcosts : b.tileCosts reqs with
  | none =>
      simp only [hcosts] at hrun₂
      exact absurd hrun₂ acts_raise
  | some costs =>
      simp only [hcosts] at hrun₂
      have hs₂ : ProcessOk cfg ⟨h₂, applyOps s.mem w₂⟩ :=
        ⟨fun hnone => by simp [hp] at hnone, fun p' hp' => by
          cases hp.symm.trans hp'
          exact ⟨hof, hok⟩⟩
      obtain ⟨p', hp', hof', hview⟩ := hs₂.acts halloc hp hrun₂
      dsimp only
      rw [List.nil_append, SchedPlane.applyOps_append]
      refine ⟨_, costs, p', horigin, hmemo ▸ hok, rfl, not_lt.1 hcap, hof.cap, hp', hof', ?_⟩
      simp only [List.foldl_append, foldl_consumeActs, foldl_planActs] at hview
      rw [hview, ← hmemo]
      rfl

/-- A begin hook that does not plan changes neither the plane nor the memory. -/
theorem begin_skipped {b : Batch K} (hskip : onCadence cfg s.host.plugin = false ∨ b.reqs = none)
    (hcall : s.call cfg (.begin b) = some s') :
    s'.mem = s.mem ∧ s'.host.plane = s.host.plane ∧
      s'.host.plugin.orderN = s.host.plugin.orderN := by
  obtain ⟨⟨h', w⟩, hrun, heq⟩ := Option.map_eq_some_iff.1 hcall
  cases heq
  simp only [Host.hook, onBatchBegin] at hrun
  obtain ⟨h₁, w₁, w₂, hstep, hrest, rfl⟩ := acts_cons hrun
  cases hstep
  cases hcad : onCadence cfg s.host.plugin with
  | false =>
      simp only [hcad, Bool.not_false, if_true] at hrest
      cases hrest
      exact ⟨rfl, rfl, rfl⟩
  | true =>
      have hnone : b.reqs = none := hskip.resolve_left (by simp [hcad])
      simp only [hcad, hnone, Bool.not_true, Bool.false_eq_true, if_false] at hrest
      cases hrest
      exact ⟨rfl, rfl, rfl⟩

omit [Zero K] in
/-- What decides whether a begin hook plans. -/
theorem begin_cases (cfg : PluginConfig K) (s : Process K) (b : Batch K) :
    (onCadence cfg s.host.plugin = false ∨ b.reqs = none) ∨
      ∃ reqs, b.reqs = some reqs ∧ onCadence cfg s.host.plugin = true := by
  cases hcad : onCadence cfg s.host.plugin with
  | false => exact Or.inl (Or.inl rfl)
  | true =>
      cases hreqs : b.reqs with
      | none => exact Or.inl (Or.inr rfl)
      | some reqs => exact Or.inr ⟨reqs, rfl, rfl⟩

theorem ProcessOk.begin (halloc : cfg.AllocOk) (hsort : SortsIndices cfg.argsort)
    (hs : ProcessOk cfg s) {b : Batch K} (hquiet : ¬ EmptyInstall cfg s b)
    (hcall : s.call cfg (.begin b) = some s') : ProcessOk cfg s' := by
  rcases begin_cases cfg s b with hskip | ⟨reqs, hreqs, hcad⟩
  · obtain ⟨hmem, hplane, hmemo⟩ := begin_skipped hskip hcall
    exact ⟨by rw [hplane, hmemo]; exact hs.unborn, by rw [hplane, hmemo, hmem]; exact hs.born⟩
  · obtain ⟨v, costs, p', horigin, hok, hcosts, hn, hcap, hp', hof, hview⟩ :=
      begin_planned halloc hs hreqs hcad hcall
    have hquiet' : ¬ EmptyInstallOn cfg s.host.plugin b (b.ntiles reqs) cfg.maxTasks v := by
      intro hempty
      rcases horigin with ⟨p, hp, rfl⟩ | ⟨-, hfresh⟩
      · exact hquiet ⟨reqs, p, hreqs, hcad, hp, hempty⟩
      · obtain ⟨-, -, -, k, hk, hne⟩ := hempty
        exact hne (hfresh.table k hk)
    have hok' := hok.plan hsort rfl hcap (Batch.tileCosts_length hcosts) hn hquiet'
    rw [← hview] at hok'
    refine ⟨fun hnone => by simp [hp'] at hnone, fun p'' hp'' => ?_⟩
    cases hp'.symm.trans hp''
    exact ⟨hof, hok'⟩

/-- An end hook changes neither the table nor the memo; it publishes the mirror's stamp, if at all. -/
theorem finish_view (halloc : cfg.AllocOk) (hs : ProcessOk cfg s) {p : SchedPlane}
    (hp : s.host.plane = some p) (hcall : s.call cfg .finish = some s') :
    ∃ p', s'.host.plane = some p' ∧ PlaneOf cfg p' s'.mem ∧
      s'.host.plugin.orderN = s.host.plugin.orderN ∧
      (p'.view s'.mem = p.view s.mem ∨
        p'.view s'.mem = { p.view s.mem with stamp := (p.view s.mem).mirror }) := by
  obtain ⟨⟨h', w⟩, hrun, heq⟩ := Option.map_eq_some_iff.1 hcall
  cases heq
  obtain ⟨p', hp', hof, hview⟩ := hs.acts halloc hp hrun
  refine ⟨p', hp', hof, ?_⟩
  simp only [Host.hook, onBatchEnd, hp, Option.isSome_some, Bool.not_true, Bool.false_eq_true,
    if_false, List.foldl_cons] at hview
  split at hview
  · obtain ⟨hmemo, hpub⟩ := Prod.ext_iff.1 hview
    exact ⟨hmemo, Or.inr hpub⟩
  · obtain ⟨hmemo, hsame⟩ := Prod.ext_iff.1 hview
    exact ⟨hmemo, Or.inl hsame⟩

theorem ProcessOk.finish (halloc : cfg.AllocOk) (hs : ProcessOk cfg s)
    (hcall : s.call cfg .finish = some s') : ProcessOk cfg s' := by
  cases hp : s.host.plane with
  | none =>
      obtain ⟨⟨h', w⟩, hrun, heq⟩ := Option.map_eq_some_iff.1 hcall
      simp only [Host.hook, onBatchEnd, hp, Option.isSome_none, Bool.not_false, if_true] at hrun
      cases hrun
      cases heq
      exact hs
  | some p =>
      obtain ⟨p', hp', hof, hmemo, hview⟩ := finish_view halloc hs hp hcall
      have hok := (hs.born p hp).2
      refine ⟨fun hnone => by simp [hp'] at hnone, fun p'' hp'' => ?_⟩
      cases hp'.symm.trans hp''
      rw [hmemo]
      rcases hview with hview | hview
      · exact ⟨hof, hview ▸ hok⟩
      · exact ⟨hof, hview ▸ hok.publish⟩

/-- A hook call that returns and is not an empty install. -/
def QuietCall (cfg : PluginConfig K) (s s' : Process K) : Prop :=
  ∃ c, (∀ b, c = .begin b → ¬ EmptyInstall cfg s b) ∧ s.call cfg c = some s'

theorem ProcessOk.reaches (halloc : cfg.AllocOk) (hsort : SortsIndices cfg.argsort) {m : ByteMem}
    {R : ℤ} (hrun : Reaches (QuietCall cfg) (Process.boot m R) s) : ProcessOk cfg s := by
  refine hrun.invariant (fun s s' hs hstep => ?_) (.boot cfg m R)
  obtain ⟨c, hquiet, hcall⟩ := hstep
  cases c with
  | begin b => exact hs.begin halloc hsort (hquiet b rfl) hcall
  | finish => exact hs.finish halloc hcall

theorem not_consistent_after (halloc : cfg.AllocOk) (hsort : SortsIndices cfg.argsort)
    (hs : ProcessOk cfg s) {b : Batch K} (hempty : EmptyInstall cfg s b)
    (hcall : s.call cfg (.begin b) = some s') :
    ∃ p, s'.host.plane = some p ∧ ¬ (p.view s'.mem).Consistent p.N := by
  obtain ⟨reqs, p₀, hreqs, hcad, hp₀, hempty⟩ := hempty
  obtain ⟨v, costs, p', horigin, hok, hcosts, hn, hcap, hp', hof, hview⟩ :=
    begin_planned halloc hs hreqs hcad hcall
  have hv : v = p₀.view s.mem := by
    rcases horigin with ⟨p, hp, rfl⟩ | ⟨hnone, -⟩
    · cases hp₀.symm.trans hp
      rfl
    · simp [hp₀] at hnone
  subst hv
  refine ⟨p', hp', ?_⟩
  have hbad := not_consistent_of_emptyInstall (o := s.host.plugin.orderN) hsort
    (Batch.tileCosts_length hcosts) hempty
  rwa [← hview, ← hof.N] at hbad

/-- **The serving-plane table invariant.** After every hook of a run without empty installs the
    published plane is consistent, and every launch over it is a bijection of its tiles; and an empty
    install, wherever it happens in such a run, leaves the plane inconsistent. -/
theorem servingPlane_consistent (cfg : PluginConfig K) (halloc : cfg.AllocOk)
    (hsort : SortsIndices cfg.argsort) (m : ByteMem) (R : ℤ) (s : Process K)
    (hrun : Reaches (QuietCall cfg) (Process.boot m R) s) :
    (∀ p, s.host.plane = some p → (p.view s.mem).Consistent p.N ∧
        ∀ C, p.Bakes C → ∀ g, PermutesBelow (emitRemap C p.slots s.mem g) g) ∧
      ∀ b s', s.call cfg (.begin b) = some s' → EmptyInstall cfg s b →
        ∃ p, s'.host.plane = some p ∧ ¬ (p.view s'.mem).Consistent p.N := by
  have hs := ProcessOk.reaches halloc hsort hrun
  constructor
  · intro p hp
    obtain ⟨hof, hok⟩ := hs.born p hp
    have hcons : (p.view s.mem).Consistent p.N := by
      rw [hof.N]
      exact hok.consistent
    refine ⟨hcons, fun C hC g => hcons.bijective hC ?_ hof.channel ?_ g⟩
    · rw [hof.base]
      exact halloc.base_pos
    · rw [hof.orderDev]
      exact fun d hd => (halloc.order d hd).2.1
  · exact fun b s' hcall hempty => not_consistent_after halloc hsort hs hempty hcall

/-! ## Two runs -/

/-- An enforcing plugin on the host-mapped channels that plans every step, for up to 3 tiles. -/
def planConfig : PluginConfig ℕ where
  observeOnly := false
  planEvery := 1
  maxTasks := 3
  base := 4096
  float := id
  blockSum := List.sum
  argsort := argsortDesc

theorem planConfig_allocOk : planConfig.AllocOk :=
  ⟨by decide, by simp [planConfig], by simp [planConfig], by simp [planConfig]⟩

/-- One tile per request, with the given costs. -/
def unsplitBatch (costs : List ℕ) : Batch ℕ where
  reqs := some (costs.map fun c => ⟨0, c, c⟩)

theorem servingPlane_consistent_first :
    ∃ s p, (Process.boot ByteMem.zeroed 0).call planConfig (.begin (unsplitBatch [2, 1, 3])) = some s ∧
      s.host.plane = some p ∧ (p.view s.mem).Consistent p.N := by
  have hsome : ((Process.boot ByteMem.zeroed 0).call planConfig
      (.begin (unsplitBatch [2, 1, 3]))).isSome := by decide +kernel
  obtain ⟨s, hs⟩ := Option.isSome_iff_exists.1 hsome
  have hquiet : QuietCall planConfig (Process.boot ByteMem.zeroed 0) s := by
    refine ⟨_, fun b hb hempty => ?_, hs⟩
    obtain ⟨reqs, p, -, -, hp, -⟩ := hempty
    exact absurd hp (by simp [Process.boot])
  obtain ⟨-, -, p, -, -, -, -, -, hp, -⟩ := begin_planned planConfig_allocOk (.boot planConfig _ 0)
    (b := unsplitBatch [2, 1, 3]) rfl (by decide) hs
  exact ⟨s, p, hs, hp, ((servingPlane_consistent planConfig planConfig_allocOk sortsIndices_argsortDesc
    ByteMem.zeroed 0 s (.single hquiet)).1 p hp).1⟩

/-- A batch of three tiles with costs 2, 1, 3 installs the order `[2, 0, 1]`, which is published when
    its hooks have returned. -/
theorem planConfig_installed {s₁ s₂ : Process ℕ}
    (hs₁ : (Process.boot ByteMem.zeroed 0).call planConfig (.begin (unsplitBatch [2, 1, 3])) = some s₁)
    (hs₂ : s₁.call planConfig .finish = some s₂) :
    ProcessOk planConfig s₂ ∧ ∃ p table, s₂.host.plane = some p ∧
      p.view s₂.mem = ⟨overlay [2, 0, 1] table, 3, 3⟩ := by
  have hboot := ProcessOk.boot planConfig ByteMem.zeroed 0
  obtain ⟨v, costs, p₁, -, -, hcosts, -, -, hp₁, -, hview₁⟩ := begin_planned planConfig_allocOk hboot
    (b := unsplitBatch [2, 1, 3]) rfl (by decide) hs₁
  cases hcosts
  have hbranch : branch planConfig { clcR := 0 } (unsplitBatch [2, 1, 3]) 3 = .queued := by decide
  have horder : regionOrder planConfig.float planConfig.blockSum planConfig.argsort planConfig.lptBlock
      [2, 1, 3] 0 = [2, 0, 1] := by decide
  have hinstalled : p₁.view s₁.mem = ⟨overlay [2, 0, 1] v.table, 3, 3⟩ := by
    have hplan : p₁.view s₁.mem = (planOnView planConfig { clcR := 0 } (unsplitBatch [2, 1, 3])
        [2, 1, 3] 3 3 (none, v)).2 := congrArg Prod.snd hview₁
    simp only [hplan, planOnView, hbranch, horder]
    rfl
  have hok₁ : ProcessOk planConfig s₁ := by
    refine hboot.begin planConfig_allocOk sortsIndices_argsortDesc ?_ hs₁
    rintro ⟨reqs, p, -, -, hp, -⟩
    exact absurd hp (by simp [Process.boot])
  -- the end hook leaves the table, and the stamp that it may publish again
  obtain ⟨p₂, hp₂, -, -, hview₂⟩ := finish_view planConfig_allocOk hok₁ hp₁ hs₂
  refine ⟨hok₁.finish planConfig_allocOk hs₂, p₂, v.table, hp₂, ?_⟩
  rcases hview₂ with hview₂ | hview₂ <;> rw [hview₂, hinstalled]

/-- Behind that order comes an empty batch, and its install stamps 0 over it: the plane is
    inconsistent after the hook. -/
theorem servingPlane_empty_batch :
    ∃ s₁ s₂ s₃ p,
      (Process.boot ByteMem.zeroed 0).call planConfig (.begin (unsplitBatch [2, 1, 3])) = some s₁ ∧
      s₁.call planConfig .finish = some s₂ ∧
      s₂.call planConfig (.begin (unsplitBatch [])) = some s₃ ∧
      s₃.host.plane = some p ∧ ¬ (p.view s₃.mem).Consistent p.N := by
  have hsome : (((Process.boot ByteMem.zeroed 0).call planConfig
      (.begin (unsplitBatch [2, 1, 3]))).bind fun s => (s.call planConfig .finish).bind fun s =>
        (s.call planConfig (.begin (unsplitBatch []))).map fun _ => s.host.plugin.clcR) = some 0 := by
    decide +kernel
  obtain ⟨s₁, hs₁, hrest⟩ := Option.bind_eq_some_iff.1 hsome
  obtain ⟨s₂, hs₂, hrest⟩ := Option.bind_eq_some_iff.1 hrest
  obtain ⟨s₃, hs₃, hR⟩ := Option.map_eq_some_iff.1 hrest
  obtain ⟨hok₂, p₂, table, hp₂, hview₂⟩ := planConfig_installed hs₁ hs₂
  -- the second hook takes the queued branch for zero tiles
  have hbranch₂ : branch planConfig s₂.host.plugin (unsplitBatch []) 0 = .queued := by
    have hR₂ : resolveR planConfig s₂.host.plugin (unsplitBatch []) = 0 := by
      simp [resolveR, hR, unsplitBatch]
    simp only [branch, hR₂]
    simp [planConfig, unsplitBatch]
  have hempty : EmptyInstall planConfig s₂ (unsplitBatch []) := by
    refine ⟨[], p₂, rfl, ?_, hp₂, rfl, rfl, Or.inr hbranch₂, 0, by decide, ?_⟩
    · simp [onCadence, planConfig, Nat.mod_one]
    · simp [hview₂, overlay]
  obtain ⟨p, hp, hbad⟩ :=
    not_consistent_after planConfig_allocOk sortsIndices_argsortDesc hok₂ hempty hs₃
  exact ⟨s₁, s₂, s₃, p, hs₁, hs₂, hs₃, hp, hbad⟩

end SchedPass
