import SchedPass.Jit.CacheKey

set_option autoImplicit false

/-! # Arming at import time and at run time (`pre_arm_env`, `_plane`)

FlashInfer freezes its workspace when it is imported, so `pre_arm_env` computes the compile environment
before there is a plane, and `_plane` computes it again from the plane it has made. The first call
knows of the device timer, which is on by default, but not of the device order table, which is on by
default as well. So by default the second call switches the order layout under a workspace that is
keyed for the other (`pre_arm_agrees_iff`). -/

namespace SchedPass

/-! ## The two call sites -/

/-- `SchedPlane.BAKE_KEYS`. -/
def bakeKeys : List String :=
  ["SCHED_PLUGIN", "SCHED_BAKE_TASK_ORDER", "SCHED_BAKE_CTRL", "SCHED_BAKE_TIMER", "SCHED_BAKE_QUEUE",
    "SCHED_MAX_TASKS", "FLASHINFER_WORKSPACE_BASE", "SCHED_TIMER_INDIRECT", "SCHED_ORDER_INDIRECT"]

/-- The loop over the keys: set what `env` has, remove what it has not. -/
def applyBake (os env : Env) : Env :=
  bakeKeys.foldl (fun os k => match env k with | some v => os.set k v | none => os.pop k) os

def defaultVaBase : ℤ := 0x5C0000000000

/-- What the two call sites depend on besides the process environment: Python's `int(s)` and
    `int(s, 0)` (`none` for an exception), the digest, the plugin file's content and the user's
    default cache root. -/
structure ArmContext where
  pyInt : String → Option ℤ
  pyInt0 : String → Option ℤ
  hexdigest : List UInt8 → String
  content : Option (List UInt8)
  defaultRoot : String

namespace ArmContext

variable (ctx : ArmContext)

/-- `predicted_base`, which is also the address that the arena asks for. -/
def predictedBase (os : Env) : Option ℤ :=
  (ctx.pyInt0 ((os "SCHED_VA_BASE").getD "0")).map fun v => if v = 0 then defaultVaBase else v

/-- `int(os.environ.get("SCHED_MAX_TASKS", "4096"))`. -/
def capacity (os : Env) : Option ℤ := ctx.pyInt ((os "SCHED_MAX_TASKS").getD "4096")

/-- `os.environ.get(k, "1") != "0"`. -/
def deviceSwitch (os : Env) (k : String) : Bool := (os k).getD "1" != "0"

/-- A call of `compute_bake_env` on the process environment. -/
def call (os : Env) (plugin : String) (base cap : ℤ) (ti oi : Bool) : BakeArgs where
  base := base
  maxTasks := cap
  plugin := plugin
  content := ctx.content
  baseEnv := os
  timerIndirect := ti
  orderIndirect := oi
  defaultRoot := ctx.defaultRoot

/-- The call that `pre_arm_env` makes: without the order channel. -/
def preArmCall (os : Env) (plugin : String) (base cap : ℤ) : BakeArgs :=
  ctx.call os plugin base cap (deviceSwitch os "SCHED_TIMER_DEVICE") false

/-- `pre_arm_env`. -/
def preArmEnv (os : Env) : Option Env :=
  match os "SCHED_PLUGIN" with
  | none => some os
  | some plugin =>
      if plugin = "" then some os
      else do
        let cap ← ctx.capacity os
        let base ← ctx.predictedBase os
        let env := computeBakeEnv ctx.hexdigest (ctx.preArmCall os plugin base cap)
        return applyBake os env

/-- `_plane` at its first use, with an arena at the address it asked for. -/
def planeArmEnv (os : Env) : Option Env := do
  let cap ← ctx.capacity os
  let base ← ctx.predictedBase os
  -- the plane refuses more tasks than its windows hold
  if cap < 0 ∨ maxTasksLimit < cap then none
  else
    let ti := deviceSwitch os "SCHED_TIMER_DEVICE"
    let oi := deviceSwitch os "SCHED_ORDER_DEVICE"
    match os "SCHED_PLUGIN" with
    | none => return os
    | some plugin =>
        if plugin = "" then return os
        else
          -- `arm_process_env`
          let env := computeBakeEnv ctx.hexdigest (ctx.call os plugin base cap ti oi)
          return applyBake os env

end ArmContext

/-! ## Agreement -/

/-- A compile in `env` lays out the tables as a workspace of key `k` says. -/
def LayoutMatches (k : CacheKey) (env : Env) : Prop :=
  (Config.fromEnv env).timerIndirect = k.timer ∧ (Config.fromEnv env).orderIndirect = k.order

/-- Arming at run time changes nothing, and compiles at either time match the frozen workspace, whose key
    is `k`. -/
structure PreArmAgrees (k : CacheKey) (os₁ os₂ : Env) : Prop where
  unchanged : ∀ key ∈ bakeKeys, os₂ key = os₁ key
  before : LayoutMatches k os₁
  after : LayoutMatches k os₂

/-- The order table stays on the host or its layout is asked for already; and no channel variable that
    decides is set to nothing. -/
def ChannelsForeseen (os : Env) : Prop :=
  (ArmContext.deviceSwitch os "SCHED_ORDER_DEVICE" = true → os "SCHED_ORDER_INDIRECT" = some "1") ∧
    (ArmContext.deviceSwitch os "SCHED_TIMER_DEVICE" = false → os "SCHED_TIMER_INDIRECT" ≠ some "") ∧
    os "SCHED_ORDER_INDIRECT" ≠ some ""

theorem applyBake_apply (os env : Env) (k : String) :
    applyBake os env k = if k ∈ bakeKeys then env k else os k := by
  have hfold : ∀ (keys : List String) (os : Env),
      keys.foldl (fun os k => match env k with | some v => os.set k v | none => os.pop k) os k
        = if k ∈ keys then env k else os k := by
    intro keys
    induction keys with
    | nil => intro os; rfl
    | cons key keys ih =>
        intro os
        rw [List.foldl_cons, ih]
        by_cases hmem : k ∈ keys
        · rw [if_pos hmem, if_pos (List.mem_cons_of_mem key hmem)]
        · rw [if_neg hmem]
          by_cases hk : k = key
          · subst hk
            rw [if_pos (List.mem_cons_self ..)]
            cases env k <;> simp [Env.set, Env.pop]
          · have hcons : k ∉ key :: keys := by simp [hk, hmem]
            rw [if_neg hcons]
            cases env key <;> simp [Env.set, Env.pop, hk]
  exact hfold bakeKeys os

theorem bakedEnv_of_notMem (a : BakeArgs) {k : String} (h : k ∉ bakeKeys) :
    a.bakedEnv k = a.baseEnv k := by
  simp only [bakeKeys, List.mem_cons, List.not_mem_nil, or_false, not_or] at h
  obtain ⟨h₁, h₂, h₃, h₄, h₅, h₆, -, h₈, h₉⟩ := h
  cases ht : a.timerIndirect <;> cases ho : a.orderIndirect <;>
    simp [BakeArgs.bakedEnv, ht, ho, Env.set_apply, h₁, h₂, h₃, h₄, h₅, h₆, h₈, h₉]

/-- Applied to the environment it was computed from, a compile environment becomes the process's. -/
theorem applyBake_computeBakeEnv (hexdigest : List UInt8 → String) (a : BakeArgs) :
    applyBake a.baseEnv (computeBakeEnv hexdigest a) = computeBakeEnv hexdigest a := by
  funext k
  rw [applyBake_apply]
  split
  · rfl
  · next hk =>
      have hne : k ≠ "FLASHINFER_WORKSPACE_BASE" := fun he => hk (he ▸ by decide)
      rw [computeBakeEnv_apply hne, bakedEnv_of_notMem a hk]

theorem bakedEnv_timer (a : BakeArgs) : a.bakedEnv "SCHED_TIMER_INDIRECT" =
    if a.timerIndirect then some "1" else a.baseEnv "SCHED_TIMER_INDIRECT" := by
  cases ht : a.timerIndirect <;> cases ho : a.orderIndirect <;>
    simp [BakeArgs.bakedEnv, ht, ho, Env.set_apply]

theorem bakedEnv_order (a : BakeArgs) : a.bakedEnv "SCHED_ORDER_INDIRECT" =
    if a.orderIndirect then some "1" else a.baseEnv "SCHED_ORDER_INDIRECT" := by
  cases ht : a.timerIndirect <;> cases ho : a.orderIndirect <;>
    simp [BakeArgs.bakedEnv, ht, ho, Env.set_apply]

theorem bakedEnv_plugin (a : BakeArgs) : a.bakedEnv "SCHED_PLUGIN" = some a.plugin := by
  cases ht : a.timerIndirect <;> cases ho : a.orderIndirect <;>
    simp [BakeArgs.bakedEnv, ht, ho, Env.set_apply]

/-- A second call, on the environment of the first, with the same arguments but for the order channel. -/
structure Recomputed (hexdigest : List UInt8 → String) (a b : BakeArgs) : Prop where
  base : b.base = a.base
  maxTasks : b.maxTasks = a.maxTasks
  plugin : b.plugin = a.plugin
  content : b.content = a.content
  defaultRoot : b.defaultRoot = a.defaultRoot
  timer : b.timerIndirect = a.timerIndirect
  env : b.baseEnv = computeBakeEnv hexdigest a

variable {hexdigest : List UInt8 → String} {a b : BakeArgs}

/-- Recomputing can change the order layout only. -/
theorem Recomputed.bakedEnv_eq (h : Recomputed hexdigest a b) {k : String}
    (hws : k ≠ "FLASHINFER_WORKSPACE_BASE") (hord : k ≠ "SCHED_ORDER_INDIRECT") :
    b.bakedEnv k = a.bakedEnv k := by
  by_cases hk : k ∈ bakeKeys
  · obtain ⟨ho, hc, ht, hq⟩ := a.bake_env
    obtain ⟨ho', hc', ht', hq'⟩ := b.bake_env
    rw [h.base] at ho' hc' ht' hq'
    simp only [bakeKeys, List.mem_cons, List.not_mem_nil, or_false] at hk
    rcases hk with rfl | rfl | rfl | rfl | rfl | rfl | rfl | rfl | rfl
    · rw [bakedEnv_plugin, bakedEnv_plugin, h.plugin]
    · rw [ho, ho']
    · rw [hc, hc']
    · rw [ht, ht']
    · rw [hq, hq']
    · rw [a.maxTasks_env, b.maxTasks_env, h.maxTasks]
    · exact absurd rfl hws
    · rw [bakedEnv_timer b, h.timer, h.env, computeBakeEnv_apply hws, bakedEnv_timer]
      split <;> rfl
    · exact absurd rfl hord
  · rw [bakedEnv_of_notMem b hk, h.env, computeBakeEnv_apply hws]

theorem Recomputed.order_eq (h : Recomputed hexdigest a b) :
    b.bakedEnv "SCHED_ORDER_INDIRECT"
      = if b.orderIndirect then some "1" else a.bakedEnv "SCHED_ORDER_INDIRECT" := by
  rw [bakedEnv_order b, h.env, computeBakeEnv_apply (by decide)]

/-- With the same order layout, the workspace is the same. -/
theorem Recomputed.workspace_eq (h : Recomputed hexdigest a b)
    (hord : b.bakedEnv "SCHED_ORDER_INDIRECT" = a.bakedEnv "SCHED_ORDER_INDIRECT") :
    b.workspace hexdigest = a.workspace hexdigest := by
  have htruthy : ∀ k ≠ "FLASHINFER_WORKSPACE_BASE", b.bakedEnv.truthy k = a.bakedEnv.truthy k := by
    intro k hk
    by_cases ho : k = "SCHED_ORDER_INDIRECT"
    · rw [Env.truthy, Env.truthy, ho, hord]
    · rw [Env.truthy, Env.truthy, h.bakedEnv_eq hk ho]
  have hroot : b.root = a.root := by
    rw [BakeArgs.root, BakeArgs.root, h.bakedEnv_eq (by decide) (by decide), h.defaultRoot]
  have hkey : b.key hexdigest = a.key hexdigest := by
    simp [BakeArgs.key, htruthy, h.base, h.maxTasks, h.content]
  rw [BakeArgs.workspace_eq, BakeArgs.workspace_eq, hroot, hkey]

/-! ## When they agree -/

theorem present_eq_truthy_iff (env : Env) (k : String) : env.present k = env.truthy k ↔ env k ≠ some "" := by
  rw [Env.present, Env.truthy]
  rcases h : env k with _ | v
  · simp
  · by_cases hv : v = "" <;> simp [hv]

/-- A compile in the environment of a call matches its own workspace unless a channel variable is set to
    nothing. -/
theorem layoutMatches_iff (hexdigest : List UInt8 → String) (a : BakeArgs) :
    LayoutMatches (a.key hexdigest) (computeBakeEnv hexdigest a) ↔
      a.bakedEnv "SCHED_TIMER_INDIRECT" ≠ some "" ∧ a.bakedEnv "SCHED_ORDER_INDIRECT" ≠ some "" := by
  rw [LayoutMatches, fromEnv_computeBakeEnv, ← present_eq_truthy_iff, ← present_eq_truthy_iff]
  exact Iff.rfl

theorem LayoutMatches.congr {k : CacheKey} {env env' : Env} (h : LayoutMatches k env)
    (hkeys : ∀ key ∈ bakeKeys, env' key = env key) : LayoutMatches k env' := by
  have hpresent : ∀ key ∈ bakeKeys, env'.present key = env.present key := by
    intro key hkey
    rw [Env.present, hkeys key hkey, Env.present]
  exact ⟨(hpresent _ (by decide)).trans h.1, (hpresent _ (by decide)).trans h.2⟩

theorem Recomputed.agrees_iff (h : Recomputed hexdigest a b) (ha : a.orderIndirect = false) :
    PreArmAgrees (a.key hexdigest) (computeBakeEnv hexdigest a) (computeBakeEnv hexdigest b) ↔
      (b.orderIndirect = true → a.baseEnv "SCHED_ORDER_INDIRECT" = some "1") ∧
        (a.timerIndirect = false → a.baseEnv "SCHED_TIMER_INDIRECT" ≠ some "") ∧
          a.baseEnv "SCHED_ORDER_INDIRECT" ≠ some "" := by
  have htimer := bakedEnv_timer a
  have horder : a.bakedEnv "SCHED_ORDER_INDIRECT" = a.baseEnv "SCHED_ORDER_INDIRECT" := by
    rw [bakedEnv_order, ha]
    rfl
  constructor
  · rintro ⟨hkeys, hbefore, -⟩
    obtain ⟨hti, hoi⟩ := (layoutMatches_iff hexdigest a).1 hbefore
    refine ⟨fun hb => ?_, fun hta => ?_, horder ▸ hoi⟩
    · have hord := hkeys "SCHED_ORDER_INDIRECT" (by decide)
      rw [computeBakeEnv_apply (by decide), computeBakeEnv_apply (by decide), h.order_eq, if_pos hb,
        horder] at hord
      exact hord.symm
    · rw [htimer, hta] at hti
      exact hti
  · rintro ⟨hforeseen, hti, hoi⟩
    have hord : b.bakedEnv "SCHED_ORDER_INDIRECT" = a.bakedEnv "SCHED_ORDER_INDIRECT" := by
      rw [h.order_eq]
      split
      · next hb => rw [horder, hforeseen hb]
      · rfl
    have hkeys : ∀ key ∈ bakeKeys, computeBakeEnv hexdigest b key = computeBakeEnv hexdigest a key := by
      intro key hkey
      by_cases hws : key = "FLASHINFER_WORKSPACE_BASE"
      · rw [computeBakeEnv, computeBakeEnv, Env.set_apply, Env.set_apply, if_pos hws, if_pos hws,
          h.workspace_eq hord]
      · rw [computeBakeEnv_apply hws, computeBakeEnv_apply hws]
        by_cases ho : key = "SCHED_ORDER_INDIRECT"
        · rw [ho, hord]
        · exact h.bakedEnv_eq hws ho
    have hbefore : LayoutMatches (a.key hexdigest) (computeBakeEnv hexdigest a) := by
      refine (layoutMatches_iff hexdigest a).2 ⟨?_, horder ▸ hoi⟩
      rw [htimer]
      split
      · decide
      · next hta => exact hti (Bool.eq_false_iff.2 hta)
    exact ⟨hkeys, hbefore, hbefore.congr hkeys⟩

/-- **Pre-arming agrees with arming exactly when the channels were foreseen.** For every process
    environment with `SCHED_PLUGIN` set in which both run, with an arena at the predicted address. -/
theorem pre_arm_agrees_iff (ctx : ArmContext) (hint : ∀ n, ctx.pyInt (pyStr n) = some n)
    {os os₁ os₂ : Env} {plugin : String} (hplugin : os "SCHED_PLUGIN" = some plugin) (hne : plugin ≠ "")
    {cap base : ℤ} (hcap : ctx.capacity os = some cap) (hbase : ctx.predictedBase os = some base)
    (hpre : ctx.preArmEnv os = some os₁) (hplane : ctx.planeArmEnv os₁ = some os₂) :
    PreArmAgrees ((ctx.preArmCall os plugin base cap).key ctx.hexdigest) os₁ os₂ ↔
      ChannelsForeseen os := by
  have hos₁ : os₁ = computeBakeEnv ctx.hexdigest (ctx.preArmCall os plugin base cap) := by
    simp only [ArmContext.preArmEnv, hplugin, if_neg hne, hcap, hbase, Option.bind_eq_bind,
      Option.bind_some, Option.pure_def, Option.some.injEq] at hpre
    rw [← hpre]
    exact applyBake_computeBakeEnv ctx.hexdigest (ctx.preArmCall os plugin base cap)
  have hkeep : ∀ k ∉ bakeKeys, os₁ k = os k := by
    intro k hk
    have hws : k ≠ "FLASHINFER_WORKSPACE_BASE" := fun he => hk (he ▸ by decide)
    rw [hos₁, computeBakeEnv_apply hws, bakedEnv_of_notMem _ hk]
    rfl
  have hswitch : ∀ k ∉ bakeKeys, ArmContext.deviceSwitch os₁ k = ArmContext.deviceSwitch os k := by
    intro k hk
    rw [ArmContext.deviceSwitch, hkeep k hk, ArmContext.deviceSwitch]
  have hcap₁ : ctx.capacity os₁ = some cap := by
    have hmax : os₁ "SCHED_MAX_TASKS" = some (pyStr cap) := by
      rw [hos₁, computeBakeEnv_apply (by decide), BakeArgs.maxTasks_env]
      rfl
    rw [ArmContext.capacity, hmax]
    exact hint cap
  have hbase₁ : ctx.predictedBase os₁ = some base := by
    rw [ArmContext.predictedBase, hkeep _ (by decide)]
    exact hbase
  have hplugin₁ : os₁ "SCHED_PLUGIN" = some plugin := by
    rw [hos₁, computeBakeEnv_apply (by decide), bakedEnv_plugin]
    rfl
  let second := ctx.call os₁ plugin base cap (ArmContext.deviceSwitch os "SCHED_TIMER_DEVICE")
    (ArmContext.deviceSwitch os "SCHED_ORDER_DEVICE")
  have hos₂ : os₂ = computeBakeEnv ctx.hexdigest second := by
    simp only [ArmContext.planeArmEnv, hcap₁, hbase₁, hplugin₁, if_neg hne, Option.bind_eq_bind,
      Option.bind_some, Option.pure_def, hswitch _ (show "SCHED_TIMER_DEVICE" ∉ bakeKeys by decide),
      hswitch _ (show "SCHED_ORDER_DEVICE" ∉ bakeKeys by decide)] at hplane
    split at hplane
    · cases hplane
    · rw [← Option.some.inj hplane]
      exact applyBake_computeBakeEnv ctx.hexdigest second
  have hre : Recomputed ctx.hexdigest (ctx.preArmCall os plugin base cap) second :=
    ⟨rfl, rfl, rfl, rfl, rfl, rfl, hos₁⟩
  rw [hos₁, hos₂]
  exact hre.agrees_iff rfl

/-- `int(s)` of plain decimal numerals. -/
def asciiInt (s : String) : Option ℤ :=
  match s.toList with
  | '-' :: ds => some (-(Nat.ofDigitChars 10 ds 0 : ℤ))
  | ds => some (Nat.ofDigitChars 10 ds 0 : ℤ)

theorem asciiInt_pyStr (n : ℤ) : asciiInt (pyStr n) = some n := by
  rw [asciiInt, pyStr, String.toList_ofList]
  cases n with
  | ofNat n =>
      rcases hd : Nat.toDigits 10 n with _ | ⟨c, ds⟩
      · exact absurd hd Nat.toDigits_ne_nil
      · have hc : c ≠ '-' := by
          rintro rfl
          exact minus_notMem_toDigits (b := 10) (n := n) (by decide) (by decide)
            (hd ▸ List.mem_cons_self ..)
        have hn : Nat.ofDigitChars 10 (c :: ds) 0 = n := by rw [← hd, Nat.ofDigitChars_ten_toDigits]
        simp only [formatInt, hd]
        split
        · next heq => exact absurd (List.cons.inj heq).1 hc
        · rw [hn]
          rfl
  | negSucc n =>
      simp only [formatInt, Nat.ofDigitChars_ten_toDigits]
      rfl

def sampleContext : ArmContext where
  pyInt := asciiInt
  pyInt0 := asciiInt
  hexdigest := sampleDigest
  content := some []
  defaultRoot := "/root/.cache/flashinfer-sched"

/-- The plugin set, and the order table left on the host. -/
theorem pre_arm_agrees_iff_host_order : ∃ os₁ os₂,
    sampleContext.preArmEnv ((Env.set (fun _ => none) "SCHED_PLUGIN" "p.so").set "SCHED_ORDER_DEVICE" "0")
        = some os₁ ∧ sampleContext.planeArmEnv os₁ = some os₂ ∧
      PreArmAgrees ((sampleContext.preArmCall ((Env.set (fun _ => none) "SCHED_PLUGIN" "p.so").set
        "SCHED_ORDER_DEVICE" "0") "p.so" defaultVaBase 4096).key sampleDigest) os₁ os₂ := by
  have hruns : ((sampleContext.preArmEnv ((Env.set (fun _ => none) "SCHED_PLUGIN" "p.so").set
      "SCHED_ORDER_DEVICE" "0")).bind sampleContext.planeArmEnv).isSome = true := by decide
  obtain ⟨os₂, hbind⟩ := Option.isSome_iff_exists.1 hruns
  obtain ⟨os₁, hpre, hplane⟩ := Option.bind_eq_some_iff.1 hbind
  refine ⟨os₁, os₂, hpre, hplane, ?_⟩
  refine (pre_arm_agrees_iff sampleContext asciiInt_pyStr (by decide) (by decide) (by decide)
    (by decide) hpre hplane).2 ⟨?_, ?_, ?_⟩ <;> decide

/-- The plugin set and nothing else: the run-time arming switches the order layout and the workspace. -/
theorem pre_arm_misses_order_channel : ∃ os₁ os₂,
    sampleContext.preArmEnv (Env.set (fun _ => none) "SCHED_PLUGIN" "p.so") = some os₁ ∧
      sampleContext.planeArmEnv os₁ = some os₂ ∧ os₁ "SCHED_ORDER_INDIRECT" = none ∧
      os₂ "SCHED_ORDER_INDIRECT" = some "1" ∧
      os₁ "FLASHINFER_WORKSPACE_BASE" ≠ os₂ "FLASHINFER_WORKSPACE_BASE" ∧
      ¬ PreArmAgrees ((sampleContext.preArmCall (Env.set (fun _ => none) "SCHED_PLUGIN" "p.so") "p.so"
        defaultVaBase 4096).key sampleDigest) os₁ os₂ := by
  have hruns : ((sampleContext.preArmEnv (Env.set (fun _ => none) "SCHED_PLUGIN" "p.so")).bind fun os₁ =>
      (sampleContext.planeArmEnv os₁).map fun os₂ =>
        (os₁ "SCHED_ORDER_INDIRECT", os₂ "SCHED_ORDER_INDIRECT",
          decide (os₁ "FLASHINFER_WORKSPACE_BASE" = os₂ "FLASHINFER_WORKSPACE_BASE")))
      = some (none, some "1", false) := by decide
  obtain ⟨os₁, hpre, hmap⟩ := Option.bind_eq_some_iff.1 hruns
  obtain ⟨os₂, hplane, hvals⟩ := Option.map_eq_some_iff.1 hmap
  simp only [Prod.mk.injEq, decide_eq_false_iff_not] at hvals
  obtain ⟨h₁, h₂, hws⟩ := hvals
  refine ⟨os₁, os₂, hpre, hplane, h₁, h₂, hws, fun hagrees => ?_⟩
  have hkeys := hagrees.unchanged "SCHED_ORDER_INDIRECT" (by decide)
  rw [h₁, h₂] at hkeys
  cases hkeys

end SchedPass
