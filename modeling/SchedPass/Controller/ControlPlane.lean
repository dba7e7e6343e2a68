import Mathlib.Algebra.Order.Group.Abs
import Mathlib.Data.List.Sort
import SchedPass.Controller.Fit
import SchedPass.Lib.JobOrders
import SchedPass.Plane.SchedPlane

set_option autoImplicit false

/-! # The closed-loop controller (`SchedControlPlane`)

Per step, the controller folds the measured cycles into its estimator, predicts the cost of every request
of the batch and sorts the slots under its policy. A dead-band damps the result: the last order of the same
length is returned again unless the fresh one improves `_span`, the total completion time, by enough.
Arithmetic is exact, over an ordered field. -/

namespace SchedPass

/-- The configured policy; any string is accepted until an order is asked for. -/
inductive Policy
  | lpt
  | srpt
  | edf
  | other (name : String)
  deriving DecidableEq, Repr

/-- What `order` raises: `ValueError("edf needs deadlines")`, `ValueError("unknown policy …")`, or an
    `IndexError` of the EDF key on a list shorter than the batch. -/
inductive OrderError
  | edfNeedsDeadlines
  | unknownPolicy (name : String)
  | indexOutOfRange
  deriving DecidableEq, Repr

/-- A slot order: `indices[k]` is the batch index served `k`-th. -/
structure SlotOrder where
  indices : List ℕ
  perm : indices.Perm (List.range indices.length)
  deriving DecidableEq

namespace SlotOrder

theorem ext {o o' : SlotOrder} (h : o.indices = o'.indices) : o = o' := by
  cases o
  cases o'
  subst h
  rfl

/-- `sorted(range(n), key=…)`, a stable sort. -/
def sortedBy {K : Type} [LE K] [DecidableLE K] (n : ℕ) (key : ℕ → K) : SlotOrder where
  indices := (List.range n).insertionSort fun i j => key i ≤ key j
  perm := by
    rw [List.length_insertionSort, List.length_range]
    exact List.perm_insertionSort _ _

section

variable {K : Type} [LE K] [DecidableLE K]

@[simp] theorem length_sortedBy (n : ℕ) (key : ℕ → K) : (sortedBy n key).indices.length = n := by
  rw [sortedBy, List.length_insertionSort, List.length_range]

theorem sortedBy_perm (n : ℕ) (key : ℕ → K) : (sortedBy n key).indices.Perm (List.range n) :=
  List.perm_insertionSort _ _

end

theorem sortedBy_pairwise {K : Type} [LinearOrder K] (n : ℕ) (key : ℕ → K) :
    (sortedBy n key).indices.Pairwise fun i j => key i ≤ key j :=
  have : Std.Total fun i j => key i ≤ key j := ⟨fun i j => le_total (key i) (key j)⟩
  have : IsTrans ℕ fun i j => key i ≤ key j := ⟨fun _ _ _ => le_trans⟩
  List.pairwise_insertionSort _ _

end SlotOrder

/-! ## The controller -/

/-- The fields of the dataclass; `resid` maps a request id to its EWMA residual. -/
structure SchedControlPlane (κ K : Type) where
  policy : Policy
  ewma : K
  deadband : K
  fit : Fit K
  resid : κ → Option K
  gamma : K
  lastOrder : SlotOrder

variable {κ K : Type} [Field K]

/-- `SchedControlPlane(policy, ewma, deadband)`. -/
def SchedControlPlane.init (policy : Policy) (ewma deadband : K) : SchedControlPlane κ K where
  policy := policy
  ewma := ewma
  deadband := deadband
  fit := Fit.init
  resid := fun _ => none
  gamma := 1
  lastOrder := ⟨[], .nil⟩

/-- `_span`: the sum of the prefix sums of the ordered costs. -/
def span (tHat : List K) (order : List ℕ) : K :=
  (order.foldl (fun sc i => (sc.1 + (sc.2 + tHat.getD i 0), sc.2 + tHat.getD i 0)) (0, 0)).1

namespace SchedControlPlane

/-! ### Estimation -/

section

variable [LinearOrder K]

def predictOne (m : SchedControlPlane κ K) (kvLen : K) (rid : Option κ) : K :=
  let (alpha, beta) := m.fit.coeffs
  let t := alpha * kvLen + beta
  let t :=
    match rid with
    | none => t
    | some rid => t + (m.resid rid).getD 0
  max t 0

/-- One request of `observe`; a row without cycles was not measured. -/
def observeOne [DecidableEq κ] (m : SchedControlPlane κ K) (rid : κ) (ln cy : K) :
    SchedControlPlane κ K :=
  if cy ≤ 0 then m
  else
    let m := { m with fit := m.fit.add ln cy }
    let pred := m.predictOne ln none
    let r := (m.resid rid).getD 0
    { m with resid := Function.update m.resid rid ((1 - m.ewma) * r + m.ewma * (cy - pred)) }

def observe [DecidableEq κ] (m : SchedControlPlane κ K) (rids : List κ) (kvLens cycles : List K) :
    SchedControlPlane κ K :=
  (rids.zip (kvLens.zip cycles)).foldl (fun m p => m.observeOne p.1 p.2.1 p.2.2) m

def observeStep (m : SchedControlPlane κ K) (predictedMakespan measuredMakespan : K) :
    SchedControlPlane κ K :=
  if 0 < predictedMakespan ∧ 0 < measuredMakespan then
    let g := measuredMakespan / predictedMakespan
    { m with gamma := (1 - m.ewma) * m.gamma + m.ewma * g }
  else m

/-- A request's absolute residual, or its whole prediction when it has none. -/
def doubt (m : SchedControlPlane κ K) (rid : κ) (kvLen : K) : K :=
  match m.resid rid with
  | some r => |r|
  | none => m.predictOne kvLen none

/-- Mean doubt over mean predicted cost. -/
def uncertainty (m : SchedControlPlane κ K) (rids : List κ) (kvLens : List K) : K :=
  let preds := (rids.zip kvLens).map fun p => m.predictOne p.2 none
  let resids := (rids.zip kvLens).map fun p => m.doubt p.1 p.2
  let mp := if preds.isEmpty then 0 else preds.sum / preds.length
  if 0 < mp then resids.sum / resids.length / mp else 1

/-! ### Ordering with hysteresis -/

/-- The predicted costs of a batch. -/
def tHat (m : SchedControlPlane κ K) (rids : List κ) (kvLens : List K) : List K :=
  (rids.zip kvLens).map fun p => m.predictOne p.2 (some p.1)

/-- The order of the policy, before damping. -/
def freshOrder (m : SchedControlPlane κ K) (t : List K) (deadlines elapsed : Option (List K)) :
    Except OrderError SlotOrder :=
  let n := t.length
  match m.policy with
  | .lpt => .ok (.sortedBy n fun i => -t.getD i 0)
  | .srpt => .ok (.sortedBy n fun i => t.getD i 0)
  | .edf =>
      match deadlines with
      | none => .error .edfNeedsDeadlines
      | some deadlines =>
          -- `elapsed or [0.0] * n`: an empty list counts as absent
          let el :=
            match elapsed with
            | none | some [] => List.replicate n 0
            | some el => el
          if deadlines.length < n ∨ el.length < n then .error .indexOutOfRange
          else .ok (.sortedBy n fun i => deadlines.getD i 0 - el.getD i 0 - t.getD i 0)
  | .other name => .error (.unknownPolicy name)

/-- The gain that keeps an order from being replaced is below this part of the new order's span. -/
def tolerance (deadband span : K) : K := deadband * max span (1 / 10 ^ 9)

/-- The damping test: the last order has the batch's length and the gain is inside the dead-band. -/
def Damped (m : SchedControlPlane κ K) (t : List K) (new : SlotOrder) : Prop :=
  m.lastOrder.indices.length = t.length ∧
    span t m.lastOrder.indices - span t new.indices < tolerance m.deadband (span t new.indices)
  deriving Decidable

/-- The result and the controller afterwards, which is the old one when an exception is raised. -/
def order (m : SchedControlPlane κ K) (rids : List κ) (kvLens : List K)
    (deadlines elapsed : Option (List K)) : Except OrderError SlotOrder × SchedControlPlane κ K :=
  let t := m.tHat rids kvLens
  match m.freshOrder t deadlines elapsed with
  | .error e => (.error e, m)
  | .ok new =>
      if m.Damped t new then (.ok m.lastOrder, m)
      else (.ok new, { m with lastOrder := new })

/-- `step` up to the order. -/
def observed [DecidableEq κ] (m : SchedControlPlane κ K) (rids : List κ) (kvLens : List K)
    (cycles : Option (List K)) : SchedControlPlane κ K :=
  match cycles with
  | none => m
  | some cycles => m.observe rids kvLens cycles

/-- One serving step: the order and the calls of the plane. -/
def step [DecidableEq κ] (m : SchedControlPlane κ K) (rids : List κ) (kvLens : List K)
    (cycles deadlines elapsed : Option (List K)) :
    Except OrderError (SlotOrder × List PlaneOp) × SchedControlPlane κ K :=
  let (order, m) := (m.observed rids kvLens cycles).order rids kvLens deadlines elapsed
  (order.map fun o => (o, [.setOrder o.indices, .setNumTasks o.indices.length, .push]), m)

/-! ### Runs -/

/-- A call of a method that may change the controller. -/
inductive Call (κ K : Type)
  | observe (rids : List κ) (kvLens cycles : List K)
  | observeStep (predictedMakespan measuredMakespan : K)
  | order (rids : List κ) (kvLens : List K) (deadlines elapsed : Option (List K))
  | step (rids : List κ) (kvLens : List K) (cycles deadlines elapsed : Option (List K))

def call [DecidableEq κ] (m : SchedControlPlane κ K) : Call κ K → SchedControlPlane κ K
  | .observe rids kvLens cycles => m.observe rids kvLens cycles
  | .observeStep predicted measured => m.observeStep predicted measured
  | .order rids kvLens deadlines elapsed => (m.order rids kvLens deadlines elapsed).2
  | .step rids kvLens cycles deadlines elapsed => (m.step rids kvLens cycles deadlines elapsed).2

def run [DecidableEq κ] (m : SchedControlPlane κ K) (calls : List (Call κ K)) :
    SchedControlPlane κ K :=
  calls.foldl call m

end

end SchedControlPlane

end SchedPass
