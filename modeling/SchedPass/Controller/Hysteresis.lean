import Mathlib.Order.Bounds.Basic
import SchedPass.Controller.ControlPlane

set_option autoImplicit false

/-! # The hysteresis of `order`

`_span` is the total completion time, which the ascending order minimises and the descending one
maximises. Under SRPT the damping test therefore measures what the policy improves, and every returned
order is within the dead-band of the optimum. Under LPT it measures the opposite: the fresh order never
has the smaller `_span`, so that the first order of a batch length stays, whatever greedy scheduling would
gain from the fresh one. -/

namespace SchedPass

variable {κ K : Type}

/-- The configuration, which no method writes. -/
def SchedControlPlane.SameConfig (m m' : SchedControlPlane κ K) : Prop :=
  m'.policy = m.policy ∧ m'.ewma = m.ewma ∧ m'.deadband = m.deadband

theorem SchedControlPlane.SameConfig.trans {m m' m'' : SchedControlPlane κ K}
    (h : m.SameConfig m') (h' : m'.SameConfig m'') : m.SameConfig m'' :=
  ⟨h'.1.trans h.1, h'.2.1.trans h.2.1, h'.2.2.trans h.2.2⟩

variable [Field K]

theorem span_eq_totalCompletion (t : List K) (order : List ℕ) :
    span t order = totalCompletion (order.map fun i => t.getD i 0) := by
  have hfold : order.foldl (fun sc i => (sc.1 + (sc.2 + t.getD i 0), sc.2 + t.getD i 0)) (0, 0)
      = (order.map fun i => t.getD i 0).foldl (fun sc c => (sc.1 + (sc.2 + c), sc.2 + c)) (0, 0) := by
    rw [List.foldl_map]
  rw [span, hfold, foldl_completion]
  simp

variable [LinearOrder K]

section

variable [IsStrictOrderedRing K]

theorem span_ascending_le (t : List K) {order : List ℕ} (h : order.Perm (List.range t.length)) :
    span t (SlotOrder.sortedBy t.length fun i => t.getD i 0).indices ≤ span t order := by
  rw [span_eq_totalCompletion, span_eq_totalCompletion]
  refine (totalCompletion_ascending ?_ (List.Perm.map _ ?_)).1
  · exact List.pairwise_map.2 (SlotOrder.sortedBy_pairwise _ _)
  · exact (SlotOrder.sortedBy_perm _ _).trans h.symm

theorem span_le_descending (t : List K) {order : List ℕ} (h : order.Perm (List.range t.length)) :
    span t order ≤ span t (SlotOrder.sortedBy t.length fun i => -t.getD i 0).indices ∧
      (span t order = span t (SlotOrder.sortedBy t.length fun i => -t.getD i 0).indices →
        order.map (fun i => t.getD i 0) =
          (SlotOrder.sortedBy t.length fun i => -t.getD i 0).indices.map fun i => t.getD i 0) := by
  rw [span_eq_totalCompletion, span_eq_totalCompletion]
  refine totalCompletion_descending ?_ (List.Perm.map _ ?_)
  · refine List.pairwise_map.2 ((SlotOrder.sortedBy_pairwise _ _).imp ?_)
    exact fun h => neg_le_neg_iff.1 h
  · exact (SlotOrder.sortedBy_perm _ _).trans h.symm

end

namespace SchedControlPlane

/-! ## One call -/

section

variable {m : SchedControlPlane κ K} {rids : List κ} {kvLens : List K}
  {deadlines elapsed : Option (List K)}

/-- A failed call leaves the controller as it was. -/
theorem order_of_error {e : OrderError}
    (h : m.freshOrder (m.tHat rids kvLens) deadlines elapsed = .error e) :
    m.order rids kvLens deadlines elapsed = (.error e, m) := by
  simp only [order, h]

theorem order_of_damped {new : SlotOrder}
    (h : m.freshOrder (m.tHat rids kvLens) deadlines elapsed = .ok new)
    (hdamped : m.Damped (m.tHat rids kvLens) new) :
    m.order rids kvLens deadlines elapsed = (.ok m.lastOrder, m) := by
  simp only [order, h, if_pos hdamped]

theorem order_of_not_damped {new : SlotOrder}
    (h : m.freshOrder (m.tHat rids kvLens) deadlines elapsed = .ok new)
    (hdamped : ¬m.Damped (m.tHat rids kvLens) new) :
    m.order rids kvLens deadlines elapsed = (.ok new, { m with lastOrder := new }) := by
  simp only [order, h, if_neg hdamped]

end

/-! ## Runs -/

theorem order_sameConfig (m : SchedControlPlane κ K) (rids : List κ) (kvLens : List K)
    (deadlines elapsed : Option (List K)) :
    m.SameConfig (m.order rids kvLens deadlines elapsed).2 := by
  cases h : m.freshOrder (m.tHat rids kvLens) deadlines elapsed with
  | error e =>
      rw [order_of_error h]
      exact ⟨rfl, rfl, rfl⟩
  | ok new =>
      by_cases hdamped : m.Damped (m.tHat rids kvLens) new
      · rw [order_of_damped h hdamped]
        exact ⟨rfl, rfl, rfl⟩
      · rw [order_of_not_damped h hdamped]
        exact ⟨rfl, rfl, rfl⟩

section

variable [DecidableEq κ]

theorem observeOne_sameConfig (m : SchedControlPlane κ K) (rid : κ) (ln cy : K) :
    m.SameConfig (m.observeOne rid ln cy) := by
  unfold observeOne
  split <;> exact ⟨rfl, rfl, rfl⟩

theorem observe_sameConfig (m : SchedControlPlane κ K) (rids : List κ) (kvLens cycles : List K) :
    m.SameConfig (m.observe rids kvLens cycles) := by
  unfold observe
  induction rids.zip (kvLens.zip cycles) generalizing m with
  | nil => exact ⟨rfl, rfl, rfl⟩
  | cons p rows ih => exact (m.observeOne_sameConfig p.1 p.2.1 p.2.2).trans (ih _)

theorem observed_sameConfig (m : SchedControlPlane κ K) (rids : List κ) (kvLens : List K)
    (cycles : Option (List K)) : m.SameConfig (m.observed rids kvLens cycles) := by
  cases cycles with
  | none => exact ⟨rfl, rfl, rfl⟩
  | some cycles => exact m.observe_sameConfig rids kvLens cycles

theorem call_sameConfig (m : SchedControlPlane κ K) (c : Call κ K) : m.SameConfig (m.call c) := by
  cases c with
  | observe rids kvLens cycles => exact m.observe_sameConfig rids kvLens cycles
  | observeStep predicted measured =>
      simp only [call, observeStep]
      split <;> exact ⟨rfl, rfl, rfl⟩
  | order rids kvLens deadlines elapsed => exact m.order_sameConfig rids kvLens deadlines elapsed
  | step rids kvLens cycles deadlines elapsed =>
      exact (m.observed_sameConfig rids kvLens cycles).trans
        ((m.observed rids kvLens cycles).order_sameConfig rids kvLens deadlines elapsed)

theorem run_sameConfig (m : SchedControlPlane κ K) (calls : List (Call κ K)) :
    m.SameConfig (m.run calls) := by
  unfold run
  induction calls generalizing m with
  | nil => exact ⟨rfl, rfl, rfl⟩
  | cons c calls ih => exact (m.call_sameConfig c).trans (ih _)

end

/-! ## SRPT -/

/-- A returned order of the costs `t` whose total completion time is within the dead-band of the
    least one. -/
def NearOptimal (deadband : K) (t : List K) (result : Except OrderError SlotOrder) : Prop :=
  ∃ π S, result = .ok π ∧ π.indices.Perm (List.range t.length) ∧
    IsLeast { s | ∃ order : List ℕ, order.Perm (List.range t.length) ∧ span t order = s } S ∧
    span t π.indices ≤ S + tolerance deadband S

variable [IsStrictOrderedRing K]

theorem max_span_pos (S : K) : 0 < max S (1 / 10 ^ 9) := lt_max_of_lt_right (by positivity)

theorem tolerance_nonneg {deadband : K} (h : 0 ≤ deadband) (S : K) : 0 ≤ tolerance deadband S :=
  mul_nonneg h (max_span_pos S).le

theorem tolerance_pos {deadband : K} (h : 0 < deadband) (S : K) : 0 < tolerance deadband S :=
  mul_pos h (max_span_pos S)

theorem tolerance_nonpos {deadband : K} (h : deadband ≤ 0) (S : K) : tolerance deadband S ≤ 0 :=
  mul_nonpos_of_nonpos_of_nonneg h (max_span_pos S).le

theorem order_nearOptimal {m : SchedControlPlane κ K} (hpolicy : m.policy = .srpt)
    (hdeadband : 0 ≤ m.deadband) (rids : List κ) (kvLens : List K)
    (deadlines elapsed : Option (List K)) :
    NearOptimal m.deadband (m.tHat rids kvLens) (m.order rids kvLens deadlines elapsed).1 := by
  have hfresh : m.freshOrder (m.tHat rids kvLens) deadlines elapsed =
      .ok (.sortedBy (m.tHat rids kvLens).length fun i => (m.tHat rids kvLens).getD i 0) := by
    simp only [freshOrder, hpolicy]
  have hleast : IsLeast
      { s | ∃ order : List ℕ, order.Perm (List.range (m.tHat rids kvLens).length) ∧
        span (m.tHat rids kvLens) order = s }
      (span (m.tHat rids kvLens) (SlotOrder.sortedBy (m.tHat rids kvLens).length
        fun i => (m.tHat rids kvLens).getD i 0).indices) := by
    refine ⟨⟨_, SlotOrder.sortedBy_perm _ _, rfl⟩, ?_⟩
    rintro s ⟨order, hperm, rfl⟩
    exact span_ascending_le _ hperm
  by_cases hdamped : m.Damped (m.tHat rids kvLens)
      (.sortedBy (m.tHat rids kvLens).length fun i => (m.tHat rids kvLens).getD i 0)
  · rw [order_of_damped hfresh hdamped]
    obtain ⟨hlen, hgain⟩ := hdamped
    have hperm := m.lastOrder.perm
    rw [hlen] at hperm
    exact ⟨_, _, rfl, hperm, hleast, by linarith⟩
  · rw [order_of_not_damped hfresh hdamped]
    refine ⟨_, _, rfl, SlotOrder.sortedBy_perm _ _, hleast, le_add_of_nonneg_right ?_⟩
    exact tolerance_nonneg hdeadband _

/-- **Under SRPT every returned order is near-optimal.** In every run of the controller whose dead-band is
    not negative, for batches of any sizes, `order` and `step` return a permutation of the batch indices
    whose total completion time is at most the least one plus the dead-band. -/
theorem srpt_nearOptimal [DecidableEq κ] (ewma deadband : K) (hdeadband : 0 ≤ deadband)
    (calls : List (Call κ K)) (rids : List κ) (kvLens : List K)
    (cycles deadlines elapsed : Option (List K)) :
    let m := (init .srpt ewma deadband).run calls
    NearOptimal deadband (m.tHat rids kvLens) (m.order rids kvLens deadlines elapsed).1 ∧
      NearOptimal deadband ((m.observed rids kvLens cycles).tHat rids kvLens)
        ((m.step rids kvLens cycles deadlines elapsed).1.map Prod.fst) := by
  intro m
  have hconfig : (init .srpt ewma deadband : SchedControlPlane κ K).SameConfig m :=
    run_sameConfig _ calls
  have hconfig' := hconfig.trans (m.observed_sameConfig rids kvLens cycles)
  have horder : ∀ {m : SchedControlPlane κ K}, (init .srpt ewma deadband).SameConfig m →
      NearOptimal deadband (m.tHat rids kvLens) (m.order rids kvLens deadlines elapsed).1 := by
    rintro m ⟨hpolicy, -, hm⟩
    have hm : m.deadband = deadband := hm
    rw [← hm] at hdeadband ⊢
    exact order_nearOptimal hpolicy hdeadband rids kvLens deadlines elapsed
  refine ⟨horder hconfig, ?_⟩
  have hstep : (m.step rids kvLens cycles deadlines elapsed).1.map Prod.fst
      = ((m.observed rids kvLens cycles).order rids kvLens deadlines elapsed).1 := by
    simp only [step]
    cases ((m.observed rids kvLens cycles).order rids kvLens deadlines elapsed).1 <;> rfl
  rw [hstep]
  exact horder hconfig'

/-- A batch of three after one of two, which has changed the remembered order. -/
theorem srpt_nearOptimal_three_after_two :
    (0 : ℚ) ≤ 1 / 50 ∧
      let m : SchedControlPlane ℕ ℚ := (init .srpt (1 / 4) (1 / 50)).run
        [.order [0, 1, 2] [3, 1, 2] none none, .order [3, 4] [5, 4] none none]
      NearOptimal (1 / 50) (m.tHat [0, 1, 2] [2, 3, 1]) (m.order [0, 1, 2] [2, 3, 1] none none).1 ∧
        NearOptimal (1 / 50) ((m.observed [0, 1, 2] [2, 3, 1] (some [9, 7, 8])).tHat [0, 1, 2] [2, 3, 1])
          ((m.step [0, 1, 2] [2, 3, 1] (some [9, 7, 8]) none none).1.map Prod.fst) :=
  ⟨by norm_num, srpt_nearOptimal (1 / 4) (1 / 50) (by norm_num) _ _ _ _ _ _⟩

/-! ## LPT -/

/-- The makespan of greedy list scheduling of the order on `workers` workers. -/
def greedyMakespan (workers : ℕ) (t : List K) (order : SlotOrder) : K :=
  makespan workers (order.indices.map fun i => t.getD i 0)

/-- `sorted(range(n), key=lambda i: -t_hat[i])`. -/
def lptOrder (t : List K) : SlotOrder := .sortedBy t.length fun i => -t.getD i 0

/-- The fresh LPT order predicts a makespan smaller than that of the last one by more than the
    dead-band fraction. -/
def Improves (m : SchedControlPlane κ K) (workers : ℕ) (t : List K) : Prop :=
  m.deadband * greedyMakespan workers t (lptOrder t)
    < greedyMakespan workers t m.lastOrder - greedyMakespan workers t (lptOrder t)

/-- What the damping contract promises under LPT: an improvement is returned and recorded, and another
    order is kept only where the gain is within the dead-band. -/
def RepublishesImprovement (m : SchedControlPlane κ K) (workers : ℕ) (rids : List κ)
    (kvLens : List K) (deadlines elapsed : Option (List K)) : Prop :=
  (m.Improves workers (m.tHat rids kvLens) →
    m.order rids kvLens deadlines elapsed =
      (.ok (lptOrder (m.tHat rids kvLens)), { m with lastOrder := lptOrder (m.tHat rids kvLens) })) ∧
  ((m.order rids kvLens deadlines elapsed).1 = .ok m.lastOrder →
    m.lastOrder ≠ lptOrder (m.tHat rids kvLens) → ¬m.Improves workers (m.tHat rids kvLens))

omit [IsStrictOrderedRing K] in
theorem freshOrder_lpt {m : SchedControlPlane κ K} (hpolicy : m.policy = .lpt) (t : List K)
    (deadlines elapsed : Option (List K)) : m.freshOrder t deadlines elapsed = .ok (lptOrder t) := by
  simp only [freshOrder, hpolicy, lptOrder]

/-- An improvement is not one of order alone: the costs come in another sequence. -/
theorem Improves.costs_ne {m : SchedControlPlane κ K} {workers : ℕ} {t : List K}
    (h : m.Improves workers t) (hdeadband : 0 ≤ m.deadband) :
    m.lastOrder.indices.map (fun i => t.getD i 0)
      ≠ (lptOrder t).indices.map fun i => t.getD i 0 := by
  intro heq
  have hband : 0 ≤ m.deadband * greedyMakespan workers t (lptOrder t) :=
    mul_nonneg hdeadband (makespan_nonneg _ _)
  have hsame : greedyMakespan workers t m.lastOrder = greedyMakespan workers t (lptOrder t) := by
    rw [greedyMakespan, greedyMakespan, heq]
  rw [Improves, hsame, sub_self] at h
  exact absurd h (not_lt.2 hband)

/-- A dead-band of at least 0 damps every fresh LPT order whose costs come in another sequence. -/
theorem damped_lptOrder {m : SchedControlPlane κ K} (hdeadband : 0 ≤ m.deadband) {t : List K}
    (hlen : m.lastOrder.indices.length = t.length)
    (hne : m.lastOrder.indices.map (fun i => t.getD i 0)
      ≠ (lptOrder t).indices.map fun i => t.getD i 0) :
    m.Damped t (lptOrder t) := by
  have hperm := m.lastOrder.perm
  rw [hlen] at hperm
  obtain ⟨hle, heq⟩ := span_le_descending t hperm
  have hlt : span t m.lastOrder.indices < span t (lptOrder t).indices :=
    lt_of_le_of_ne hle fun h => hne (heq h)
  have hband := tolerance_nonneg hdeadband (span t (lptOrder t).indices)
  exact ⟨hlen, by linarith⟩

/-- Under a positive dead-band the first order of a batch length is kept for good. -/
theorem order_lpt_frozen {m : SchedControlPlane κ K} (hpolicy : m.policy = .lpt)
    (hdeadband : 0 < m.deadband) {rids : List κ} {kvLens : List K}
    (hlen : m.lastOrder.indices.length = (m.tHat rids kvLens).length)
    (deadlines elapsed : Option (List K)) :
    m.order rids kvLens deadlines elapsed = (.ok m.lastOrder, m) := by
  refine order_of_damped (freshOrder_lpt hpolicy _ _ _) ⟨hlen, ?_⟩
  have hperm := m.lastOrder.perm
  rw [hlen] at hperm
  have hle := (span_le_descending (m.tHat rids kvLens) hperm).1
  exact lt_of_le_of_lt (sub_nonpos.2 hle) (tolerance_pos hdeadband _)

/-- **LPT re-publishes an improvement only under a negative dead-band.** In every state whose last order
    has the batch's length and for every number of workers: the contract is met exactly when the fresh
    order is no improvement, or the dead-band is negative and the total completion time has not grown
    beyond it. -/
theorem lpt_republishesImprovement_iff (m : SchedControlPlane κ K) (hpolicy : m.policy = .lpt)
    (workers : ℕ) (rids : List κ) (kvLens : List K) (deadlines elapsed : Option (List K))
    (hlen : m.lastOrder.indices.length = (m.tHat rids kvLens).length) :
    m.RepublishesImprovement workers rids kvLens deadlines elapsed ↔
      ¬m.Improves workers (m.tHat rids kvLens) ∨
        m.deadband < 0 ∧
          tolerance m.deadband (span (m.tHat rids kvLens) (lptOrder (m.tHat rids kvLens)).indices)
            ≤ span (m.tHat rids kvLens) m.lastOrder.indices
              - span (m.tHat rids kvLens) (lptOrder (m.tHat rids kvLens)).indices := by
  have hfresh := freshOrder_lpt hpolicy (m.tHat rids kvLens) deadlines elapsed
  constructor
  · rintro ⟨hreturns, hkeeps⟩
    by_cases himproves : m.Improves workers (m.tHat rids kvLens)
    · refine .inr ?_
      -- had the test fired, the kept order would be the fresh one
      have hkept : m.Damped (m.tHat rids kvLens) (lptOrder (m.tHat rids kvLens)) →
          m.lastOrder = lptOrder (m.tHat rids kvLens) := by
        intro hdamped
        have horder := hreturns himproves
        rw [order_of_damped hfresh hdamped] at horder
        exact Except.ok.inj (congrArg Prod.fst horder)
      have hneg : m.deadband < 0 := by
        by_contra hdeadband
        have hdeadband := not_lt.1 hdeadband
        have hne := himproves.costs_ne hdeadband
        exact hne (by rw [hkept (damped_lptOrder hdeadband hlen hne)])
      refine ⟨hneg, not_lt.1 fun hgain => ?_⟩
      have hsame := hkept ⟨hlen, hgain⟩
      rw [hsame, sub_self] at hgain
      exact absurd hgain (not_lt.2 (tolerance_nonpos hneg.le _))
    · exact .inl himproves
  · rintro (hnot | ⟨hneg, hgain⟩)
    · exact ⟨fun h => absurd h hnot, fun _ _ => hnot⟩
    · have hdamped : ¬m.Damped (m.tHat rids kvLens) (lptOrder (m.tHat rids kvLens)) :=
        fun h => not_lt.2 hgain h.2
      rw [RepublishesImprovement, order_of_not_damped hfresh hdamped]
      refine ⟨fun _ => rfl, fun h hne => ?_⟩
      exact absurd (Except.ok.inj h).symm hne

/-- After the batch `(3, 2, 1)` the order `[0, 1, 2]` is remembered. -/
def afterDescending : SchedControlPlane ℕ ℚ :=
  (init .lpt (1 / 4) (1 / 50)).run [.order [0, 1, 2] [3, 2, 1] none none]

/-- The costs `(1, 1, 2)` on two workers: the dead-band is not negative, and the fresh order needs time
    2 where `[0, 1, 2]` needs 3. -/
theorem lpt_republishesImprovement_three :
    afterDescending.policy = .lpt ∧
      afterDescending.lastOrder.indices.length = (afterDescending.tHat [0, 1, 2] [1, 1, 2]).length ∧
      (afterDescending.RepublishesImprovement 2 [0, 1, 2] [1, 1, 2] none none ↔
        ¬afterDescending.Improves 2 (afterDescending.tHat [0, 1, 2] [1, 1, 2]) ∨
          afterDescending.deadband < 0 ∧
            tolerance afterDescending.deadband
                (span (afterDescending.tHat [0, 1, 2] [1, 1, 2])
                  (lptOrder (afterDescending.tHat [0, 1, 2] [1, 1, 2])).indices)
              ≤ span (afterDescending.tHat [0, 1, 2] [1, 1, 2]) afterDescending.lastOrder.indices
                - span (afterDescending.tHat [0, 1, 2] [1, 1, 2])
                    (lptOrder (afterDescending.tHat [0, 1, 2] [1, 1, 2])).indices) := by
  have hlen : afterDescending.lastOrder.indices.length
      = (afterDescending.tHat [0, 1, 2] [1, 1, 2]).length := by decide +kernel
  exact ⟨rfl, hlen, lpt_republishesImprovement_iff _ rfl 2 _ _ _ _ hlen⟩

/-- The batch `(1, 1, 2)` after `(3, 2, 1)`: the order `[0, 1, 2]` is kept. -/
theorem not_lpt_republishesImprovement_three :
    ¬afterDescending.RepublishesImprovement 2 [0, 1, 2] [1, 1, 2] none none := by
  have himproves : afterDescending.Improves 2 (afterDescending.tHat [0, 1, 2] [1, 1, 2]) := by
    unfold Improves
    decide +kernel
  rintro ⟨hreturns, -⟩
  have horder := congrArg Prod.fst (hreturns himproves)
  have hkept : (afterDescending.order [0, 1, 2] [1, 1, 2] none none).1
      = .ok ⟨[0, 1, 2], .refl _⟩ := by decide +kernel
  rw [hkept] at horder
  exact absurd horder (by decide +kernel)

end SchedControlPlane

end SchedPass
