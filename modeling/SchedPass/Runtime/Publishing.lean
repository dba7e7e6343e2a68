import Mathlib.Data.List.Count
import Mathlib.Logic.Function.Iterate
import SchedPass.Plane.Windows
import SchedPass.Runtime.ShedBudget

set_option autoImplicit false

/-! # Publishing (`SchedPlane.push`, `sched_rt_push_ctrl`)

A push writes the mirror into the arena under a generation that counts the pushes. The host runtime
counts in a 32-bit word; the plane counts without bound and packs the count, so the push that would be
the 2^32-th raises, and so does every later one. Ahead of it all goes well (`pushes_publish_iff`). -/

namespace SchedPass

/-- `s'` is the plane behind its `k`-th push: it succeeded, the arena's control block is the mirror, and
    the generation word has changed, to what the host runtime's is after as many. -/
structure Published (k : ℕ) (s s' : PlaneMem) : Prop where
  succeeds : ∃ w, s.plane.push = some (s'.plane, w) ∧ s'.mem = applyOps s.mem w
  mirrors : ∀ i < s'.plane.ctrlBytes,
    s'.mem (s'.plane.base + ctrlOff + i) = s'.plane.ctrlHost i
  changes : s'.mem.load32 (s'.plane.base + ctrlOff) ≠ s.mem.load32 (s.plane.base + ctrlOff)
  runtime : ∀ (maxTasks : ℕ) (rt : SchedRt) (m : ByteMem), rt.hCtrl = ByteMem.zeroed →
    s'.mem.load32 (s'.plane.base + ctrlOff)
      = ((fun x : SchedRt × ByteMem => x.1.pushCtrl maxTasks x.2)^[k] (rt, m)).1.hCtrl.load32 0

/-! ## The host runtime's word -/

theorem load_pushCtrl_generation (maxTasks : ℕ) (rt : SchedRt) (m : ByteMem) :
    (rt.pushCtrl maxTasks m).1.hCtrl.load32 0 = (rt.hCtrl.load32 0 + 1) % 2 ^ 32 :=
  ByteMem.load_store_toBytes _ 0 4 _

theorem load_pushCtrl_iterate (maxTasks : ℕ) {rt : SchedRt} (hzero : rt.hCtrl = ByteMem.zeroed)
    (m : ByteMem) (k : ℕ) :
    ((fun x : SchedRt × ByteMem => x.1.pushCtrl maxTasks x.2)^[k] (rt, m)).1.hCtrl.load32 0
      = k % 2 ^ 32 := by
  induction k with
  | zero =>
      rw [Function.iterate_zero_apply, hzero]
      rfl
  | succ k ih =>
      rw [Function.iterate_succ_apply', load_pushCtrl_generation, ih, Nat.mod_add_mod]

/-! ## Counting pushes -/

section

variable {p p' : SchedPlane} {m : ByteMem} {w : List MemOp}

theorem push_isSome_iff : p.push.isSome ↔ p.generation + 1 < 2 ^ 32 := by
  simp only [SchedPlane.push, SchedPlane.packU32, Option.isSome_map]
  split <;> simp_all

/-- What a push that succeeds leaves. -/
theorem mirrors_push (hpush : p.push = some (p', w)) {i : ℕ} (hi : i < p'.ctrlBytes) :
    applyOps m w (p'.base + ctrlOff + i) = p'.ctrlHost i := by
  obtain ⟨host, -, heq⟩ := Option.map_eq_some_iff.1 hpush
  cases heq
  rw [SchedPlane.applyOps_cons, SchedPlane.applyOps_cons, SchedPlane.applyOps_nil]
  rcases Nat.lt_or_ge i 4 with hlt | hge
  · exact (ByteMem.store_slice_apply _ host _ 0 hlt).trans (by rw [Nat.zero_add])
  · have hbody : i - 4 < p.ctrlBytes - 4 := by
      have hbytes : i < p.ctrlBytes := hi
      omega
    have hgen : p.base + ctrlOff + (host.slice 0 4).length ≤ p.base + ctrlOff + i := by
      rw [ByteMem.length_slice]
      omega
    have hcopy := ByteMem.store_slice_apply m host (p.base + ctrlOff + 4) 4 hbody
    rw [show p.base + ctrlOff + 4 + (i - 4) = p.base + ctrlOff + i by omega,
      show 4 + (i - 4) = i by omega] at hcopy
    exact (ByteMem.store_apply_of_not_mem _ _ _ (Or.inr hgen)).trans hcopy

theorem load_push_generation (hpush : p.push = some (p', w)) :
    p'.generation = p.generation + 1 ∧ p.generation + 1 < 2 ^ 32 ∧
      (applyOps m w).load32 (p'.base + ctrlOff) = p.generation + 1 := by
  obtain ⟨host, hpack, heq⟩ := Option.map_eq_some_iff.1 hpush
  cases heq
  refine ⟨rfl, (SchedPlane.packU32_eq_some hpack).1, ?_⟩
  have hcopy := ByteMem.load_store_slice
    (m.store (p.base + ctrlOff + 4) (host.slice 4 (p.ctrlBytes - 4))) host (p.base + ctrlOff) 0
    (show 0 + 4 ≤ 4 from le_rfl)
  simp only [Nat.add_zero] at hcopy
  exact hcopy.trans (SchedPlane.packU32_load32_self hpack)

end

/-- Behind `k` pushes, all counted, and published as far as they fit. -/
structure Counted (base k : ℕ) (s : PlaneMem) : Prop where
  laid : s.plane.Laid
  base_eq : s.plane.base = base
  generation : s.plane.generation = k
  published : k < 2 ^ 32 → s.mem.load32 (base + ctrlOff) = k

variable {base k : ℕ} {s s' : PlaneMem} {c : PlaneCall} {calls : List PlaneCall}

/-- A call that is no push keeps the count. -/
theorem Counted.other (h : Counted base k s) (hstep : PlaneStep s c s') (hc : c ≠ .method .push) :
    Counted base k s' := by
  obtain ⟨hlaid, -, hbase⟩ := hstep.laid h.laid
  obtain ⟨hgen, hsame⟩ := hstep.unpublished h.laid hc
  have hword : s'.mem.load32 (base + ctrlOff) = s.mem.load32 (base + ctrlOff) := by
    refine ByteMem.load_congr fun i hlo hhi => hsame i ?_
    simp only [Span.Covers, SchedPlane.window, Table.off, windowBytes, h.base_eq]
    omega
  exact ⟨hlaid, hbase.trans h.base_eq, hgen.trans h.generation, fun hk => hword.trans (h.published hk)⟩

/-- A push counts, whether it succeeds or not. -/
theorem Counted.push (h : Counted base k s) (hstep : PlaneStep s (.method .push) s') :
    Counted base (k + 1) s' := by
  obtain ⟨hlaid, -, hbase⟩ := hstep.laid h.laid
  cases hstep with
  | performed halloc hrun =>
      obtain ⟨hgen, -, hword⟩ := load_push_generation (m := s.mem) hrun
      rw [h.generation] at hgen hword
      refine ⟨hlaid, hbase.trans h.base_eq, hgen, fun _ => ?_⟩
      rwa [hbase, h.base_eq] at hword
  | rejected hc host hhost => exact absurd rfl hc
  | pushRejected hraise host =>
      refine ⟨hlaid, h.base_eq, congrArg (· + 1) h.generation, fun hk => ?_⟩
      rw [← h.generation] at hk
      rw [← push_isSome_iff, hraise] at hk
      exact absurd hk Bool.false_ne_true

theorem Counted.runs (h : Counted base k s) (hrun : PlaneRuns s calls s') :
    Counted base (k + calls.count (.method .push)) s' := by
  induction hrun with
  | nil => exact h
  | @concat s₁ s₂ calls c hrun hstep ih =>
      rw [List.count_append, List.count_singleton, ← Nat.add_assoc]
      by_cases hc : c = .method .push
      · subst hc
        exact ih.push hstep
      · rw [if_neg (by simpa using hc)]
        exact ih.other hstep hc

/-- The constructor has pushed once. -/
theorem counted_create {N base : ℕ} {p : SchedPlane} {w : List MemOp}
    (hcreate : SchedPlane.create N base = some (p, w)) (m : ByteMem) :
    Counted base 1 ⟨p, applyOps m w⟩ := by
  obtain ⟨-, w', hpush, hops⟩ := SchedPlane.push_of_create hcreate
  have hbase : p.base = base := (SchedPlane.sameLayout_create hcreate).base
  obtain ⟨hgen, -, hword⟩ := load_push_generation hpush
  rw [hops]
  rw [hbase] at hword
  exact ⟨SchedPlane.laid_create hcreate, hbase, hgen, fun _ => hword⟩

/-! ## Publishing -/

theorem exists_prefix_of_lt_count {α : Type} [DecidableEq α] {x : α} {l : List α} {k : ℕ}
    (h : k < l.count x) : ∃ done, done ++ [x] <+: l ∧ done.count x = k := by
  induction l generalizing k with
  | nil => exact absurd h (Nat.not_lt_zero k)
  | cons y l ih =>
      by_cases hy : y = x
      · subst hy
        cases k with
        | zero => exact ⟨[], ⟨l, rfl⟩, List.count_nil⟩
        | succ k =>
            rw [List.count_cons_self] at h
            obtain ⟨done, hdone, hcount⟩ := ih (Nat.lt_of_succ_lt_succ h)
            exact ⟨y :: done, List.cons_prefix_cons.2 ⟨rfl, hdone⟩, by
              rw [List.count_cons_self, hcount]⟩
      · rw [List.count_cons_of_ne hy] at h
        obtain ⟨done, hdone, hcount⟩ := ih h
        exact ⟨y :: done, List.cons_prefix_cons.2 ⟨rfl, hdone⟩, by
          rw [List.count_cons_of_ne hy, hcount]⟩

/-- **Publishing goes on exactly below 2^32 pushes.** Of every run of calls from a new plane: each push
    succeeds and publishes the mirror under a generation of its own, the host runtime's, while the
    calls push fewer than 2^32 times, with the constructor's push counted. -/
theorem pushes_publish_iff {N base : ℕ} {p : SchedPlane} {w : List MemOp}
    (hcreate : SchedPlane.create N base = some (p, w)) (m : ByteMem) (calls : List PlaneCall) :
    (∀ done, done ++ [.method .push] <+: calls → ∀ s s',
      PlaneRuns ⟨p, applyOps m w⟩ done s → PlaneStep s (.method .push) s' →
        Published (done.count (.method .push) + 2) s s') ↔
      calls.count (.method .push) + 1 < 2 ^ 32 := by
  have hstart := counted_create hcreate m
  constructor
  · intro hall
    by_contra hmany
    -- the push that the count does not fit
    obtain ⟨done, hdone, hcount⟩ := exists_prefix_of_lt_count
      (show 2 ^ 32 - 2 < calls.count (PlaneCall.method .push) by omega)
    obtain ⟨s, hrun⟩ := exists_planeRuns ⟨p, applyOps m w⟩ done
    obtain ⟨s', hstep⟩ := exists_planeStep s (.method .push)
    obtain ⟨w', hpush, -⟩ := (hall done hdone s s' hrun hstep).succeeds
    have hgen := (hstart.runs hrun).generation
    have hfits := (load_push_generation (m := s.mem) hpush).2.1
    omega
  · intro hfew done hdone s s' hrun hstep
    have hcounted := hstart.runs hrun
    have hpushes : (done ++ [PlaneCall.method .push]).count (.method .push)
        ≤ calls.count (.method .push) := hdone.sublist.count_le _
    rw [List.count_append, List.count_singleton_self] at hpushes
    have hgen := hcounted.generation
    cases hstep with
    | performed halloc hpush =>
        rename_i p' w'
        obtain ⟨hgen', hfits, hword⟩ := load_push_generation (m := s.mem) hpush
        have hbefore : s.mem.load32 (s.plane.base + ctrlOff) = 1 + done.count (.method .push) := by
          rw [hcounted.base_eq]
          exact hcounted.published (by omega)
        refine ⟨⟨w', hpush, rfl⟩, fun i hi => mirrors_push hpush hi, ?_, fun maxTasks rt m' hzero => ?_⟩
        · show (applyOps s.mem w').load32 _ ≠ _
          rw [hword, hbefore, hgen]
          omega
        · show (applyOps s.mem w').load32 _ = _
          rw [load_pushCtrl_iterate maxTasks hzero, hword, hgen, Nat.mod_eq_of_lt (by omega)]
          omega
    | rejected hc host hhost => exact absurd rfl hc
    | pushRejected hraise host =>
        have hsome := push_isSome_iff.2 (show s.plane.generation + 1 < 2 ^ 32 by omega)
        rw [hraise] at hsome
        exact absurd hsome Bool.false_ne_true

/-- The push behind the constructor's. -/
theorem pushes_publish_first :
    ∃ p w, SchedPlane.create 4 4096 = some (p, w) ∧
      ∀ s', PlaneStep ⟨p, applyOps ByteMem.zeroed w⟩ (.method .push) s' →
        Published 2 ⟨p, applyOps ByteMem.zeroed w⟩ s' := by
  obtain ⟨p, w, hcreate⟩ := SchedPlane.exists_create (show 4 ≤ maxTasksLimit by decide) 4096
  have hfew : [PlaneCall.method .push].count (.method .push) + 1 < 2 ^ 32 := by decide
  exact ⟨p, w, hcreate, fun s' hstep =>
    (pushes_publish_iff hcreate ByteMem.zeroed _).2 hfew [] (List.prefix_refl _) _ s' .nil hstep⟩

/-- The push behind 2^32 - 2 others and the constructor's raises, and the arena keeps the block before. -/
theorem push_raises_at_limit :
    ∃ p w s s', SchedPlane.create 4 4096 = some (p, w) ∧
      PlaneRuns ⟨p, applyOps ByteMem.zeroed w⟩ (List.replicate (2 ^ 32 - 2) (.method .push)) s ∧
      PlaneStep s (.method .push) s' ∧ s.plane.push = none ∧ s'.mem = s.mem ∧
      ¬ Published (2 ^ 32) s s' := by
  obtain ⟨p, w, hcreate⟩ := SchedPlane.exists_create (show 4 ≤ maxTasksLimit by decide) 4096
  obtain ⟨s, hrun⟩ := exists_planeRuns ⟨p, applyOps ByteMem.zeroed w⟩
    (List.replicate (2 ^ 32 - 2) (.method .push))
  have hgen := ((counted_create hcreate ByteMem.zeroed).runs hrun).generation
  rw [List.count_replicate_self] at hgen
  have hraise : s.plane.push = none := by
    rw [← Option.not_isSome_iff_eq_none, push_isSome_iff]
    omega
  refine ⟨p, w, s, _, hcreate, hrun, .pushRejected hraise s.plane.ctrlHost, hraise, rfl, ?_⟩
  intro hpublished
  obtain ⟨w', hpush, -⟩ := hpublished.succeeds
  rw [hraise] at hpush
  cases hpush

end SchedPass
