import Mathlib.Tactic.IntervalCases
import SchedPass.Lib.ByteMem
import SchedPass.Lib.CheckedCalls
import SchedPass.Lib.Runs
import SchedPass.Util

set_option autoImplicit false

/-! # The host runtime (`sched_rt.h`)

`sched_rt_init` allocates and initialises the tables with a chain of CUDA calls, each of which may
fail, and then points the four device slots at them; `sched_rt_disarm` nulls the slots. A failed call
makes either return false at once.

Init decides by `d_order` alone whether the tables exist, and by `armed` alone whether the slots are
set. Both are wrong after a failure in between: a setup that fails behind the allocation of `d_order`
is taken for a complete one by the next init, and a disarm that fails behind its first write leaves
`armed` set. `sched_rt_guarantees` says that nothing else goes wrong. -/

namespace SchedPass

/-! ## State -/

/-- What the runtime asks of CUDA: the address of the `n`-th allocation, distinct and not null, and the
    device view of host-mapped memory. -/
structure Cuda where
  alloc : ℕ → ℕ
  alloc_pos : ∀ n, 0 < alloc n
  alloc_injective : Function.Injective alloc
  devicePointer : ℕ → ℕ
  devicePointer_pos : ∀ p, 0 < p → 0 < devicePointer p

/-- `SchedRtState`, with the device's `__sched_*` slots, the number of allocations made, and the
    buffers that an initialising copy or fill has succeeded on. -/
structure SchedRt where
  dOrder : ℕ := 0
  dCtrl : ℕ := 0
  hTimer : ℕ := 0
  dTimer : ℕ := 0
  dQueue : ℕ := 0
  hCtrl : ByteMem := ByteMem.zeroed
  armed : Bool := false
  slotOrder : ℕ := 0
  slotCtrl : ℕ := 0
  slotTimer : ℕ := 0
  slotQueue : ℕ := 0
  allocations : ℕ := 0
  initialised : List ℕ := []

namespace SchedRt

/-- The slots as woven code finds them. -/
def slots (s : SchedRt) : RtSlots where
  taskOrder := { global := some s.slotOrder }
  ctrl := { global := some s.slotCtrl }
  queue := { global := some s.slotQueue }
  timer := { global := some s.slotTimer }

/-! ## The calls -/

variable (cuda : Cuda)

/-- The CUDA calls of `sched_rt_init` ahead of its `arm` label. -/
def setupCalls : List (CheckedCall SchedRt) :=
  [ { effect := fun s => { s with dOrder := cuda.alloc s.allocations, allocations := s.allocations + 1 } },
    -- the identity order
    { effect := fun s => { s with initialised := s.dOrder :: s.initialised } },
    -- the host mirror is cleared ahead of the control block's allocation
    { before := fun s => { s with hCtrl := ByteMem.zeroed }
      effect := fun s => { s with dCtrl := cuda.alloc s.allocations, allocations := s.allocations + 1 } },
    { effect := fun s => { s with initialised := s.dCtrl :: s.initialised } },
    { effect := fun s => { s with hTimer := cuda.alloc s.allocations, allocations := s.allocations + 1 } },
    -- the rows are cleared by the host
    { before := fun s => { s with initialised := s.hTimer :: s.initialised }
      effect := fun s => { s with dTimer := cuda.devicePointer s.hTimer } },
    { effect := fun s => { s with dQueue := cuda.alloc s.allocations, allocations := s.allocations + 1 } },
    { effect := fun s => { s with initialised := s.dQueue :: s.initialised } } ]

/-- The four `cudaMemcpyToSymbol` behind the `arm` label. -/
def armCalls : List (CheckedCall SchedRt) :=
  [ { effect := fun s => { s with slotOrder := s.dOrder } },
    { effect := fun s => { s with slotCtrl := s.dCtrl } },
    { effect := fun s => { s with slotTimer := s.dTimer } },
    { effect := fun s => { s with slotQueue := s.dQueue } } ]

/-- The four `cudaMemcpyToSymbol` of a null pointer. -/
def disarmCalls : List (CheckedCall SchedRt) :=
  [ { effect := fun s => { s with slotOrder := 0 } },
    { effect := fun s => { s with slotCtrl := 0 } },
    { effect := fun s => { s with slotTimer := 0 } },
    { effect := fun s => { s with slotQueue := 0 } } ]

/-- The calls that an init issues when it is not armed. -/
def initCalls (s : SchedRt) : List (CheckedCall SchedRt) :=
  if s.dOrder ≠ 0 then armCalls else setupCalls cuda ++ armCalls

/-- `sched_rt_init`, whose `i`-th CUDA call succeeds iff `ok i`. -/
def init (ok : ℕ → Bool) (s : SchedRt) : Bool × SchedRt :=
  if s.armed then (true, s)
  else
    let (done, s) := runCalls ok (s.initCalls cuda) s
    if done then (true, { s with armed := true }) else (false, s)

/-- `sched_rt_disarm`. -/
def disarm (ok : ℕ → Bool) (s : SchedRt) : Bool × SchedRt :=
  let (done, s) := runCalls ok disarmCalls s
  if done then (true, { s with armed := false }) else (false, s)

/-! ## Runs -/

inductive Call
  | init (ok : ℕ → Bool)
  | disarm (ok : ℕ → Bool)

def exec (s : SchedRt) : Call → Bool × SchedRt
  | .init ok => s.init cuda ok
  | .disarm ok => s.disarm ok

/-- The four slots point to the four tables, which exist and are initialised. -/
structure SlotsGood (s : SchedRt) : Prop where
  order : s.slotOrder = s.dOrder ∧ 0 < s.dOrder ∧ s.dOrder ∈ s.initialised
  ctrl : s.slotCtrl = s.dCtrl ∧ 0 < s.dCtrl ∧ s.dCtrl ∈ s.initialised
  timer : s.slotTimer = cuda.devicePointer s.hTimer ∧ 0 < s.hTimer ∧ s.hTimer ∈ s.initialised
  queue : s.slotQueue = s.dQueue ∧ 0 < s.dQueue ∧ s.dQueue ∈ s.initialised

/-- No slot is null. -/
def SlotsSet (s : SchedRt) : Prop :=
  0 < s.slotOrder ∧ 0 < s.slotCtrl ∧ 0 < s.slotTimer ∧ 0 < s.slotQueue

/-- Every slot is null. -/
def SlotsNull (s : SchedRt) : Prop :=
  s.slotOrder = 0 ∧ s.slotCtrl = 0 ∧ s.slotTimer = 0 ∧ s.slotQueue = 0

/-- What a call promises when it returns true. -/
def Kept (s : SchedRt) : Call → Prop
  | .init ok => (s.init cuda ok).1 = true → (s.init cuda ok).2.SlotsGood cuda
  | .disarm ok => (s.disarm ok).1 = true → (s.disarm ok).2.SlotsNull

/-- A call at which the runtime does not lose track: a setup gets nowhere or gets through, and init is
    not called with `armed` set and a slot nulled. -/
def Clean (s : SchedRt) : Call → Prop
  | .init ok =>
      if s.armed then s.SlotsSet
      else s.dOrder = 0 → ok 0 = false ∨ ∀ i < (setupCalls cuda).length, ok i = true
  | .disarm _ => True

/-- A clean call. -/
inductive CleanStep : SchedRt → SchedRt → Prop
  | call {s : SchedRt} {c : Call} (h : s.Clean cuda c) : CleanStep s (s.exec cuda c).2

/-! ## What every clean call keeps -/

/-- The four tables exist and are initialised. -/
structure Tables (s : SchedRt) : Prop where
  order : 0 < s.dOrder ∧ s.dOrder ∈ s.initialised
  ctrl : 0 < s.dCtrl ∧ s.dCtrl ∈ s.initialised
  timer : 0 < s.hTimer ∧ s.hTimer ∈ s.initialised ∧ s.dTimer = cuda.devicePointer s.hTimer
  queue : 0 < s.dQueue ∧ s.dQueue ∈ s.initialised

/-- Each slot is null or points to its table. -/
structure SlotsOk (s : SchedRt) : Prop where
  order : s.slotOrder = 0 ∨ s.slotOrder = s.dOrder
  ctrl : s.slotCtrl = 0 ∨ s.slotCtrl = s.dCtrl
  timer : s.slotTimer = 0 ∨ s.slotTimer = s.dTimer
  queue : s.slotQueue = 0 ∨ s.slotQueue = s.dQueue

/-- The runtime knows where it is: nothing has been set up, or the tables exist and the slots are null
    or point to them. -/
def Tracked (s : SchedRt) : Prop :=
  s = {} ∨ (s.Tables cuda ∧ s.SlotsOk)

variable {cuda} {s : SchedRt} {ok : ℕ → Bool}

theorem Tables.arm (h : s.Tables cuda ∧ s.SlotsOk) :
    (runCalls ok armCalls s).2.Tables cuda ∧ (runCalls ok armCalls s).2.SlotsOk := by
  refine runCalls_invariant (P := fun s : SchedRt => s.Tables cuda ∧ s.SlotsOk) ?_ ?_ h
  · simp +contextual [armCalls]
  · simp only [armCalls, List.forall_mem_cons, List.not_mem_nil, false_imp_iff, implies_true,
      and_true]
    refine ⟨?_, ?_, ?_, ?_⟩ <;> rintro s ⟨⟨ho, hc, ht, hq⟩, so, sc, st, sq⟩
    · exact ⟨⟨ho, hc, ht, hq⟩, Or.inr rfl, sc, st, sq⟩
    · exact ⟨⟨ho, hc, ht, hq⟩, so, Or.inr rfl, st, sq⟩
    · exact ⟨⟨ho, hc, ht, hq⟩, so, sc, Or.inr rfl, sq⟩
    · exact ⟨⟨ho, hc, ht, hq⟩, so, sc, st, Or.inr rfl⟩

/-- Behind the four writes the slots are good iff the tables are. -/
theorem slotsGood_arm_iff : (runAll armCalls s).SlotsGood cuda ↔ s.Tables cuda := by
  constructor
  · rintro ⟨ho, hc, ht, hq⟩
    exact ⟨ho.2, hc.2, ⟨ht.2.1, ht.2.2, ht.1⟩, hq.2⟩
  · rintro ⟨ho, hc, ht, hq⟩
    exact ⟨⟨rfl, ho⟩, ⟨rfl, hc⟩, ⟨ht.2.2, ht.1, ht.2.1⟩, ⟨rfl, hq⟩⟩

/-- A setup that gets through makes all four tables. -/
theorem tables_of_setup (s : SchedRt) : (runAll (setupCalls cuda) s).Tables cuda := by
  constructor <;> simp [runAll, setupCalls, CheckedCall.run, cuda.alloc_pos]

theorem slots_of_setup (s : SchedRt) (h : s.SlotsNull) : (runAll (setupCalls cuda) s).SlotsOk :=
  ⟨Or.inl h.1, Or.inl h.2.1, Or.inl h.2.2.1, Or.inl h.2.2.2⟩

/-- The two ways in which a clean init that is not armed can go. -/
theorem init_cases (h : s.Tracked cuda) (hc : s.Clean cuda (.init ok)) (harmed : s.armed = false) :
    s.init cuda ok = (false, s) ∨
      ∃ t ok', t.Tables cuda ∧ t.SlotsOk ∧
        s.init cuda ok = (if (runCalls ok' armCalls t).1 then
          (true, { (runCalls ok' armCalls t).2 with armed := true })
          else (false, (runCalls ok' armCalls t).2)) := by
  simp only [Clean, harmed, Bool.false_eq_true, if_false] at hc
  rcases h with rfl | ⟨htab, hslots⟩
  · rcases hc rfl with h0 | hall
    · -- the first allocation fails, and nothing has happened
      left
      simp [init, initCalls, setupCalls, runCalls, h0]
    · right
      refine ⟨runAll (setupCalls cuda) {}, fun i => ok (i + (setupCalls cuda).length),
        tables_of_setup {}, slots_of_setup {} ⟨rfl, rfl, rfl, rfl⟩, ?_⟩
      rw [← runCalls_append_of_ok hall]
      rfl
  · have hcalls : s.initCalls cuda = armCalls := if_pos htab.order.1.ne'
    right
    refine ⟨s, ok, htab, hslots, ?_⟩
    rw [init, harmed, hcalls]
    rfl

theorem Tracked.init (h : s.Tracked cuda) (hc : s.Clean cuda (.init ok)) :
    (s.init cuda ok).2.Tracked cuda := by
  cases harmed : s.armed with
  | true => simpa [SchedRt.init, harmed] using h
  | false =>
      rcases init_cases h hc harmed with heq | ⟨t, ok', htab, hslots, heq⟩
      · rwa [heq]
      · obtain ⟨htab', hslots'⟩ := @Tables.arm cuda t ok' ⟨htab, hslots⟩
        rw [heq]
        split
        · exact Or.inr ⟨⟨htab'.order, htab'.ctrl, htab'.timer, htab'.queue⟩,
            ⟨hslots'.order, hslots'.ctrl, hslots'.timer, hslots'.queue⟩⟩
        · exact Or.inr ⟨htab', hslots'⟩

/-- **An init that returns true leaves all slots on initialised tables.** -/
theorem Tracked.init_true (h : s.Tracked cuda) (hc : s.Clean cuda (.init ok))
    (htrue : (s.init cuda ok).1 = true) : (s.init cuda ok).2.SlotsGood cuda := by
  cases harmed : s.armed with
  | true =>
      have hset : s.SlotsSet := by simpa [Clean, harmed] using hc
      have hinit : s.init cuda ok = (true, s) := by simp [SchedRt.init, harmed]
      rcases h with rfl | ⟨htab, hslots⟩
      · exact absurd harmed Bool.false_ne_true
      · obtain ⟨ho, hct, ht, hq⟩ := hset
        rw [hinit]
        exact
          { order := ⟨hslots.order.resolve_left ho.ne', htab.order⟩
            ctrl := ⟨hslots.ctrl.resolve_left hct.ne', htab.ctrl⟩
            timer := ⟨(hslots.timer.resolve_left ht.ne').trans htab.timer.2.2, htab.timer.1,
              htab.timer.2.1⟩
            queue := ⟨hslots.queue.resolve_left hq.ne', htab.queue⟩ }
  | false =>
      rcases init_cases h hc harmed with heq | ⟨t, ok', htab, hslots, heq⟩
      · rw [heq] at htrue
        exact absurd htrue Bool.false_ne_true
      · by_cases hdone : (runCalls ok' armCalls t).1 = true
        · rw [if_pos hdone] at heq
          obtain ⟨ho, hct, ht, hq⟩ := slotsGood_arm_iff.2 htab
          rw [heq, runCalls_true hdone]
          exact ⟨ho, hct, ht, hq⟩
        · rw [if_neg hdone] at heq
          rw [heq] at htrue
          exact absurd htrue Bool.false_ne_true

theorem Tracked.disarm (h : s.Tracked cuda) : (s.disarm ok).2.Tracked cuda := by
  have hkeep : (runCalls ok disarmCalls s).2.Tracked cuda := by
    refine runCalls_invariant (P := fun s : SchedRt => s.Tracked cuda) ?_ ?_ h
    · simp [disarmCalls]
    · simp only [disarmCalls, List.forall_mem_cons, List.not_mem_nil, false_imp_iff, implies_true,
        and_true]
      refine ⟨?_, ?_, ?_, ?_⟩ <;> rintro s (rfl | ⟨⟨ho, hc, ht, hq⟩, so, sc, st, sq⟩)
      · exact Or.inl rfl
      · exact Or.inr ⟨⟨ho, hc, ht, hq⟩, Or.inl rfl, sc, st, sq⟩
      · exact Or.inl rfl
      · exact Or.inr ⟨⟨ho, hc, ht, hq⟩, so, Or.inl rfl, st, sq⟩
      · exact Or.inl rfl
      · exact Or.inr ⟨⟨ho, hc, ht, hq⟩, so, sc, Or.inl rfl, sq⟩
      · exact Or.inl rfl
      · exact Or.inr ⟨⟨ho, hc, ht, hq⟩, so, sc, st, Or.inl rfl⟩
  simp only [SchedRt.disarm]
  split
  · rcases hkeep with hstart | ⟨⟨ho, hc, ht, hq⟩, so, sc, st, sq⟩
    · rw [hstart]
      exact Or.inl rfl
    · exact Or.inr ⟨⟨ho, hc, ht, hq⟩, so, sc, st, sq⟩
  · exact hkeep

/-- A disarm that returns true has nulled every slot. -/
theorem disarm_true (htrue : (s.disarm ok).1 = true) : (s.disarm ok).2.SlotsNull := by
  by_cases hdone : (runCalls ok disarmCalls s).1 = true
  · simp only [disarm, if_pos hdone, runCalls_true hdone]
    exact ⟨rfl, rfl, rfl, rfl⟩
  · simp [disarm, hdone] at htrue

theorem Tracked.step {s' : SchedRt} (h : s.Tracked cuda) (hstep : CleanStep cuda s s') :
    s'.Tracked cuda := by
  cases hstep with
  | @call c hc =>
      cases c with
      | init ok => exact h.init hc
      | disarm ok => exact h.disarm

theorem tracked_start : ({} : SchedRt).Tracked cuda := Or.inl rfl

/-! ## Retries -/

/-- An init whose calls all succeed returns true. -/
theorem init_ok (s : SchedRt) : (s.init cuda fun _ => true).1 = true := by
  unfold init
  split
  · rfl
  · rw [runCalls_of_ok fun _ _ => rfl]
    rfl

theorem disarm_ok (s : SchedRt) : (s.disarm fun _ => true).1 = true := by
  rw [disarm, runCalls_of_ok fun _ _ => rfl]
  rfl

/-- An init that returned false was not armed and is not. -/
theorem armed_of_init_false (hfalse : (s.init cuda ok).1 = false) :
    (s.init cuda ok).2.armed = false := by
  have harmed : s.armed = false := by
    refine Bool.eq_false_iff.2 fun h => ?_
    rw [init, if_pos h] at hfalse
    exact Bool.noConfusion hfalse
  have hkeep : (runCalls ok (s.initCalls cuda) s).2.armed = false := by
    refine runCalls_invariant (P := fun s : SchedRt => s.armed = false) ?_ ?_ harmed
    · unfold initCalls
      split <;> simp [setupCalls, armCalls]
    · unfold initCalls
      split <;> simp [setupCalls, armCalls]
  simp only [init, harmed, Bool.false_eq_true, if_false] at hfalse ⊢
  split at hfalse
  · exact absurd hfalse Bool.noConfusion
  · next hdone => rwa [if_neg hdone]

theorem clean_retry (hfalse : (s.init cuda ok).1 = false) :
    (s.init cuda ok).2.Clean cuda (.init fun _ => true) := by
  simp [Clean, armed_of_init_false hfalse]

/-! ## Losing track -/

theorem SlotsGood.set (h : s.SlotsGood cuda) : s.SlotsSet := by
  obtain ⟨⟨ho, ho', -⟩, ⟨hc, hc', -⟩, ⟨ht, ht', -⟩, ⟨hq, hq', -⟩⟩ := h
  refine ⟨ho ▸ ho', hc ▸ hc', ?_, hq ▸ hq'⟩
  rw [ht]
  exact cuda.devicePointer_pos _ ht'

/-- Somewhere between the first and the last call of a setup not all tables are made. -/
theorem not_tables_of_partial_setup {k : ℕ} (hk : k < (setupCalls cuda).length) (hpos : 0 < k) :
    ¬ ((setupCalls cuda)[k].before (runAll ((setupCalls cuda).take k) {})).Tables cuda := by
  have hne : ∀ i j, i ≠ j → cuda.alloc i ≠ cuda.alloc j := fun i j h he =>
    h (cuda.alloc_injective he)
  rintro ⟨ho, hc, ht, hq⟩
  have hk8 : k < 8 := hk
  interval_cases k
  · simp [setupCalls, runAll, CheckedCall.run] at ho
  · simp [setupCalls, runAll, CheckedCall.run] at hc
  · simp [setupCalls, runAll, CheckedCall.run, hne] at hc
  · simp [setupCalls, runAll, CheckedCall.run] at ht
  · have := cuda.devicePointer_pos _ (cuda.alloc_pos 2)
    simp [setupCalls, runAll, CheckedCall.run] at ht
    omega
  · simp [setupCalls, runAll, CheckedCall.run] at hq
  · simp [setupCalls, runAll, CheckedCall.run, hne] at hq

theorem dOrder_of_partial_setup {k : ℕ} (hk : k < (setupCalls cuda).length) (hpos : 0 < k) :
    ((setupCalls cuda)[k].before (runAll ((setupCalls cuda).take k) {})).dOrder ≠ 0 ∧
      ((setupCalls cuda)[k].before (runAll ((setupCalls cuda).take k) {})).armed = false := by
  have := cuda.alloc_pos 0
  have hk8 : k < 8 := hk
  interval_cases k <;> simp [setupCalls, runAll, CheckedCall.run, this.ne']

/-- A setup that fails behind its first allocation leaves `d_order` set and some table unmade. -/
theorem half_made (h0 : ok 0 = true) (hfail : ¬ ∀ i < (setupCalls cuda).length, ok i = true) :
    ∃ t : SchedRt, ({} : SchedRt).init cuda ok = (false, t) ∧ t.dOrder ≠ 0 ∧ t.armed = false ∧
      ¬ t.Tables cuda := by
  obtain ⟨k, hk, hokk, hrun⟩ := runCalls_false (s := ({} : SchedRt)) hfail
  have hpos : 0 < k := by
    rcases Nat.eq_zero_or_pos k with rfl | hpos
    · exact absurd (h0.symm.trans hokk) Bool.noConfusion
    · exact hpos
  have hcalls : ({} : SchedRt).initCalls cuda = setupCalls cuda ++ armCalls := rfl
  have hinit : ({} : SchedRt).init cuda ok =
      (false, (setupCalls cuda)[k].before (runAll ((setupCalls cuda).take k) {})) := by
    rw [init, hcalls, runCalls_append_of_false (by rw [hrun]), hrun]
    rfl
  exact ⟨_, hinit, (dOrder_of_partial_setup hk hpos).1, (dOrder_of_partial_setup hk hpos).2,
    not_tables_of_partial_setup hk hpos⟩

theorem not_kept_of_half_made (hd : s.dOrder ≠ 0) (harmed : s.armed = false)
    (htab : ¬ s.Tables cuda) : ¬ s.Kept cuda (.init fun _ => true) := by
  intro hkept
  have hgood := hkept (init_ok s)
  have hcalls : s.initCalls cuda = armCalls := if_pos hd
  rw [init, harmed, hcalls, runCalls_of_ok fun _ _ => rfl] at hgood
  obtain ⟨ho, hc, ht, hq⟩ := hgood
  exact htab (slotsGood_arm_iff.1 ⟨ho, hc, ht, hq⟩)

/-! ## The guarantees -/

/-- The call made again, with nothing failing. -/
def Call.retry : Call → Call
  | .init _ => .init fun _ => true
  | .disarm _ => .disarm fun _ => true

/-- In a run of clean calls each clean call keeps its promise, and one that returns false can be made
    again with the same promise. A call that is not clean breaks it, itself or when made again. -/
theorem sched_rt_guarantees (cuda : Cuda) {s : SchedRt} (hrun : Reaches (CleanStep cuda) {} s)
    (c : Call) :
    (s.Clean cuda c → s.Kept cuda c ∧ ((s.exec cuda c).1 = false →
      (s.exec cuda c).2.Clean cuda c.retry ∧ ((s.exec cuda c).2.exec cuda c.retry).1 = true ∧
        (s.exec cuda c).2.Kept cuda c.retry)) ∧
    (¬ s.Clean cuda c → ¬ s.Kept cuda c ∨ ¬ (s.exec cuda c).2.Kept cuda c.retry) := by
  have htrack : s.Tracked cuda := 
    Reaches.invariant (I := fun s => s.Tracked cuda) (fun _ _ h => h.step) hrun tracked_start
  constructor
  · intro hclean
    cases c with
    | init ok =>
        refine ⟨htrack.init_true hclean, fun hfalse => ?_⟩
        exact ⟨clean_retry hfalse, init_ok _, (htrack.init hclean).init_true (clean_retry hfalse)⟩
    | disarm ok => exact ⟨disarm_true, fun _ => ⟨trivial, disarm_ok _, disarm_true⟩⟩
  · intro hclean
    cases c with
    | disarm ok => exact absurd trivial hclean
    | init ok =>
        cases harmed : s.armed with
        | true =>
            left
            intro hkept
            have hinit : s.init cuda ok = (true, s) := by simp [init, harmed]
            have hgood : s.SlotsGood cuda := by
              have := hkept (by rw [hinit])
              rwa [hinit] at this
            simp only [Clean, harmed, if_true] at hclean
            exact hclean hgood.set
        | false =>
            right
            simp only [Clean, harmed, Bool.false_eq_true, if_false, Classical.not_imp, not_or,
              Bool.not_eq_false] at hclean
            obtain ⟨hd, h0, hfail⟩ := hclean
            rcases htrack with rfl | ⟨htab, -⟩
            · obtain ⟨t, hinit, htd, hta, ht⟩ := half_made h0 hfail
              show ¬ (SchedRt.init cuda ok {}).2.Kept cuda (.init fun _ => true)
              rw [hinit]
              exact not_kept_of_half_made htd hta ht
            · exact absurd hd htab.order.1.ne'

/-- A heap that hands out 1, 2, 3, …, mapped one to one. -/
def plainCuda : Cuda where
  alloc n := n + 1
  alloc_pos := Nat.succ_pos
  alloc_injective := Nat.succ_injective
  devicePointer p := p
  devicePointer_pos _ := id

theorem sched_rt_guarantees_rearm :
    ((({} : SchedRt).exec plainCuda (.init fun i => i != 9)).2.init plainCuda fun _ => true).2.SlotsGood
      plainCuda := by
  have hclean : ({} : SchedRt).Clean plainCuda (.init fun i => i != 9) := fun _ => Or.inr (by decide)
  refine ((sched_rt_guarantees plainCuda (.single (.call hclean)) (.init fun _ => true)).1 ?_).1 rfl
  exact fun _ => Or.inr fun _ _ => rfl

/-- The control block's allocation fails; the next init returns true with its slot null. -/
theorem sched_rt_init_half_made :
    ¬ (({} : SchedRt).exec plainCuda (.init fun i => i != 2)).2.Kept plainCuda
      (.init fun _ => true) := by
  intro h
  have hctrl : 0 < (({} : SchedRt).exec plainCuda (.init fun i => i != 2)).2.dCtrl := (h rfl).ctrl.2.1
  exact absurd hctrl (by decide)

end SchedRt

end SchedPass
