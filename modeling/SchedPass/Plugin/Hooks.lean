import SchedPass.Plane.Order
import SchedPass.Plane.View

set_option autoImplicit false

/-! # The serving hooks (`sched_sglang_plugin.py`)

`on_batch_begin` and `on_batch_end` as lists of actions in program order: updates of the plugin's
`_STATE` and calls of plane methods. The costs, the kv lengths and the outcomes of the float tests,
event queries and the occupancy query are inputs of the hook. A hook that returns runs its whole
list; `raise` ends one that does not. -/

namespace SchedPass

/-! ## State and inputs -/

/-- `SCHED_SGLANG_CLC`; any other text neither arms nor stops the occupancy query. -/
inductive ClcMode
  | off | on | auto | other
  deriving DecidableEq, Repr

/-- What is fixed at import: the settings, the arena base, and the device buffers' addresses
    (`none` with `SCHED_TIMER_DEVICE=0`, `SCHED_ORDER_DEVICE=0`). -/
structure PluginConfig (K : Type) where
  observeOnly : Bool := true
  timerEvery : ℕ := 8
  planEvery : ℕ := 8
  clc : ClcMode := .auto
  lptBlock : ℤ := 16
  maxTasks : ℕ := 4096
  base : ℕ
  timerDev : Option ℕ := none
  orderDev : Option ℕ := none
  /-- What torch computes for `region_order`. -/
  float : K → K
  blockSum : List K → K
  argsort : List K → List ℕ

/-- A request of a batch: its slot, kv length and predicted cost. -/
structure Req (K : Type) where
  slot : ℕ
  kv : K
  cost : K
  deriving DecidableEq, Repr

/-- What a probe is attributed to: slots and kv lengths, the tile map, the tile count. -/
structure Binding (K : Type) where
  reqs : List (ℕ × K)
  tileToReq : Option (List ℤ)
  ntiles : ℕ
  deriving DecidableEq, Repr

/-- `_STATE`, without the settings. `pending` holds the binding of an unread probe, `inflight` says
    that a step's event was recorded. -/
structure PluginState (K : Type) where
  step : ℕ := 0
  timerArmed : Bool := false
  clcR : ℤ := 0
  binding : Option (Binding K) := none
  pending : Option (Option (Binding K)) := none
  orderN : Option ℕ := none
  inflight : Bool := false
  probesFolded : ℕ := 0
  deriving DecidableEq, Repr

/-- A batch as the begin hook finds it. -/
structure Batch (K : Type) where
  /-- `none` when the slot indices are unavailable. -/
  reqs : Option (List (Req K))
  /-- The plan's tile map, when it binds. -/
  tileToReq : Option (List ℤ) := none
  /-- `imbalance > clc_imbalance`. -/
  imbalanced : Bool := false
  /-- `uncertainty > clc_resid`. -/
  uncertain : Bool := false
  /-- The policy rows (bits of `q`, hint), when the kv footprint exceeds L2. -/
  hintRows : Option (ℕ → ℕ × ℕ) := none
  /-- What the occupancy query returns, 0 for unknown. -/
  occupancyR : ℕ := 0
  /-- The last step's event has fired. -/
  inflightFired : Bool := true
  /-- The pending probe's event has fired. -/
  pendingFired : Bool := true

/-- One action of a hook. -/
inductive HookAct (K : Type)
  | setStep (step : ℕ)
  | setTimerArmed (armed : Bool)
  | setClcR (R : ℤ)
  | setOrderN (n : Option ℕ)
  | setBinding (b : Binding K)
  | setInflight
  | setPending (p : Option (Option (Binding K)))
  /-- The pending probe's rows are folded into the estimator. -/
  | foldProbe
  | createPlane
  | plane (op : PlaneOp)
  | raise
  deriving DecidableEq, Repr

variable {K : Type} [Zero K]

/-! ## `on_batch_begin` -/

/-- Tile count and per-tile costs; `none` when the tile map indexes an empty batch. -/
def Batch.tileCosts (b : Batch K) (reqs : List (Req K)) : Option (List K) :=
  match b.tileToReq with
  | none => some (reqs.map (·.cost))
  | some ti => ti.mapM fun i =>
      (reqs[(min (max i 0) (reqs.length - 1 : ℤ)).toNat]?).map (·.cost)

def Batch.ntiles (b : Batch K) (reqs : List (Req K)) : ℕ :=
  match b.tileToReq with
  | none => reqs.length
  | some ti => ti.length

/-- Does this step start a probe? -/
def isProbe (cfg : PluginConfig K) (st : PluginState K) : Bool :=
  st.step % cfg.timerEvery == 0 && st.pending.isNone

/-- The cadence gate lets the step through. -/
def onCadence (cfg : PluginConfig K) (st : PluginState K) : Bool :=
  st.step % cfg.planEvery == 0 || isProbe cfg st

/-- `_resolve_r`, with the step counter already advanced. -/
def resolveR (cfg : PluginConfig K) (st : PluginState K) (b : Batch K) : ℤ :=
  if st.clcR ≠ 0 ∨ cfg.clc = .off then st.clcR
  else if (st.step + 1) % 64 ≠ 1 then st.clcR
  else if b.occupancyR > 0 then b.occupancyR else st.clcR

/-- The four ways an enforcing step treats the order table. -/
inductive Branch
  /-- Install a region order and arm the claim loop. -/
  | arm
  /-- One wave: retire an installed order. -/
  | retire
  /-- Queued, no step in flight: install a grouped-LPT order. -/
  | queued
  /-- Queued, a step in flight: leave the table. -/
  | keep
  deriving DecidableEq, Repr

def branch (cfg : PluginConfig K) (st : PluginState K) (b : Batch K) (ntiles : ℕ) : Branch :=
  let R := resolveR cfg st b
  if cfg.clc = .on ∨
      (cfg.clc = .auto ∧ R > 0 ∧ (ntiles : ℤ) > R ∧ b.imbalanced ∧ b.uncertain) then .arm
  else if R > 0 ∧ (ntiles : ℤ) ≤ R then .retire
  else if !st.inflight || b.inflightFired then .queued
  else .keep

/-- The branch's actions. -/
def branchActs (cfg : PluginConfig K) (st : PluginState K) (b : Batch K) (costs : List K)
    (ntiles : ℕ) : List (HookAct K) :=
  let install (R : ℤ) : List (HookAct K) :=
    (installOrder (regionOrder cfg.float cfg.blockSum cfg.argsort cfg.lptBlock costs R) ntiles).map .plane
      ++ [.setOrderN (some ntiles)]
  match branch cfg st b ntiles with
  | .arm => install (resolveR cfg st b) ++ [.plane (.setNumTasks ntiles)]
  | .retire =>
      -- the table is reset before its stamp goes to 0
      (if st.orderN.isSome then
        [.plane (.setOrder (List.range cfg.maxTasks)), .plane (.setOrderSize 0), .setOrderN none]
      else [])
        ++ [.plane (.setNumTasks 0)]
  | .queued => install 0 ++ [.plane (.setNumTasks 0)]
  | .keep => [.plane (.setNumTasks 0)]

def hintActs (b : Batch K) (ntiles : ℕ) : List (HookAct K) :=
  match b.hintRows with
  | none => []
  | some rows => (List.range ntiles).map fun k => .plane (.setRow k (rows k).1 0 (rows k).2)

/-- `_consume_probe`; a probe without a binding is dropped. -/
def consumeActs (st : PluginState K) (b : Batch K) : List (HookAct K) :=
  match st.pending with
  | none => []
  | some binding =>
      if !b.pendingFired then
        []
      else
        .setPending none :: if binding.isSome then [.foldProbe] else []

/-- The hook from the cost computation on. -/
def planActs (cfg : PluginConfig K) (st : PluginState K) (b : Batch K) (reqs : List (Req K))
    (costs : List K) : List (HookAct K) :=
  let ntiles := b.ntiles reqs
  let probe := isProbe cfg st
  [.plane (.setTimerEnabled probe), .setTimerArmed probe]
    ++ (if cfg.observeOnly then [.plane (.setNumTasks 0)]
        else branchActs cfg st b costs ntiles ++ hintActs b ntiles)
    ++ [.plane .push]
    ++ (if probe then [.plane .clearTimer] else [])
    ++ [.setBinding ⟨reqs.map fun r => (r.slot, r.kv), b.tileToReq, ntiles⟩]

def onBatchBegin (cfg : PluginConfig K) (st : PluginState K) (b : Batch K) : List (HookAct K) :=
  .setStep (st.step + 1) ::
    if !onCadence cfg st then
      -- off cadence nothing is published: the last order stays in force
      [.setTimerArmed false]
    else match b.reqs with
    | none => []
    | some reqs =>
        .createPlane ::
          if b.ntiles reqs > cfg.maxTasks then
            -- more tiles than the plane has rows
            [.raise]
          else
            consumeActs st b ++ [.setClcR (resolveR cfg st b)]
              ++ match b.tileCosts reqs with
                | none => [.raise]
                | some costs => planActs cfg st b reqs costs

/-! ## `on_batch_end` -/

/-- `planeExists` says that `_PLANE` is set. -/
def onBatchEnd (st : PluginState K) (planeExists : Bool) : List (HookAct K) :=
  if !planeExists then
    []
  else
    .setInflight ::
      if st.timerArmed then
        [.setPending (some st.binding), .plane (.setTimerEnabled false), .plane .push]
      else []

/-! ## Running a hook -/

/-- The host side: `_STATE` and `_PLANE`. -/
structure Host (K : Type) where
  plugin : PluginState K
  plane : Option SchedPlane

/-- `use_device_timer`, unless the channel is switched off. -/
def timerChannel (p : SchedPlane) : Option ℕ → SchedPlane × List MemOp
  | some dev => p.useDeviceTimer dev
  | none => (p, [])

/-- `use_device_order`, unless the channel is switched off. -/
def orderChannel (p : SchedPlane) : Option ℕ → SchedPlane × List MemOp
  | some dev => p.useDeviceOrder dev
  | none => (p, [])

/-- `_plane()`: the plane exists from the first call on. -/
def createPlane (cfg : PluginConfig K) : Option (SchedPlane × List MemOp) :=
  (SchedPlane.create cfg.maxTasks cfg.base).map fun (p, w) =>
    let (p₁, w₁) := timerChannel p cfg.timerDev
    let (p₂, w₂) := orderChannel p₁ cfg.orderDev
    (p₂, w ++ w₁ ++ w₂)

/-- One action: the host afterwards and the writes issued, `none` when it raises. -/
def Host.act (cfg : PluginConfig K) (h : Host K) : HookAct K → Option (Host K × List MemOp)
  | .setStep step => some ({ h with plugin := { h.plugin with step := step } }, [])
  | .setTimerArmed armed => some ({ h with plugin := { h.plugin with timerArmed := armed } }, [])
  | .setClcR R => some ({ h with plugin := { h.plugin with clcR := R } }, [])
  | .setOrderN n => some ({ h with plugin := { h.plugin with orderN := n } }, [])
  | .setBinding b => some ({ h with plugin := { h.plugin with binding := some b } }, [])
  | .setInflight => some ({ h with plugin := { h.plugin with inflight := true } }, [])
  | .setPending p => some ({ h with plugin := { h.plugin with pending := p } }, [])
  | .foldProbe =>
      some ({ h with plugin := { h.plugin with probesFolded := h.plugin.probesFolded + 1 } }, [])
  | .createPlane =>
      match h.plane with
      | some _ => some (h, [])
      | none => (createPlane cfg).map fun (p, w) => ({ h with plane := some p }, w)
  | .plane op => do
      let p ← h.plane
      let (p', w) ← p.exec op
      return ({ h with plane := some p' }, w)
  | .raise => none

/-- A list of actions, until one raises. -/
def Host.acts (cfg : PluginConfig K) (h : Host K) : List (HookAct K) → Option (Host K × List MemOp)
  | [] => some (h, [])
  | a :: as => do
      let (h₁, w₁) ← h.act cfg a
      let (h₂, w₂) ← h₁.acts cfg as
      return (h₂, w₁ ++ w₂)

/-- A hook call. -/
inductive HookCall (K : Type)
  | begin (b : Batch K)
  | finish

/-- The call's actions in a host state. -/
def Host.hook (cfg : PluginConfig K) (h : Host K) : HookCall K → List (HookAct K)
  | .begin b => onBatchBegin cfg h.plugin b
  | .finish => onBatchEnd h.plugin h.plane.isSome

end SchedPass
