import Mathlib.Algebra.BigOperators.Group.Finset.Piecewise
import Mathlib.Algebra.BigOperators.Ring.Finset
import Mathlib.Algebra.Order.BigOperators.Group.Finset
import Mathlib.Data.List.Count
import SchedPass.Lib.KeyGroups
import SchedPass.Plane.TimerView
import SchedPass.Plugin.Estimate
import SchedPass.Plugin.PlanReader

set_option autoImplicit false

/-! # The per-request fold of a probe

A block adds its cycles to the row of the task it served, so the rows are the cycles by tile, whatever
block served which (`readRows_runTimed`). `_consume_probe` adds them up by request in 64-bit integers:
the result is the tiles' sums modulo 2^64, and the sums themselves while the launch's total fits
(`perRequest_of_launch`). -/

namespace SchedPass

/-! ## 64-bit sums -/

theorem toInt64_of_lt {x : ℕ} (h : x < 2 ^ 63) : toInt64 x = x :=
  Int.bmod_eq_of_le (by omega) (by omega)

/-- A counter holds the cycles modulo 2^64, and `int64` does not tell. -/
theorem toInt64_mod (x : ℕ) : toInt64 ((x % 2 ^ 64 : ℕ) : ℤ) = toInt64 x := by
  rw [toInt64, toInt64, Int.natCast_mod, Nat.cast_pow, Nat.cast_ofNat]
  exact Int.emod_bmod _ _

theorem toInt64_add_left (x y : ℤ) : toInt64 (toInt64 x + y) = toInt64 (x + y) := Int.bmod_add_bmod

theorem toInt64_add_right (x y : ℤ) : toInt64 (x + toInt64 y) = toInt64 (x + y) := Int.add_bmod_bmod

theorem sumInt64_eq (xs : List ℤ) : sumInt64 xs = toInt64 xs.sum := by
  induction xs using List.reverseRecOn with
  | nil => rfl
  | append_singleton xs x ih =>
      have hlast : sumInt64 (xs ++ [x]) = toInt64 (sumInt64 xs + x) := by
        rw [sumInt64, List.foldl_append]
        rfl
      rw [hlast, ih, toInt64_add_left, List.sum_append, List.sum_singleton]

/-- Wrapping the terms of a sum does not change it. -/
theorem toInt64_sum_map {α : Type} (l : List α) (f : α → ℤ) :
    toInt64 (l.map fun a => toInt64 (f a)).sum = toInt64 (l.map f).sum := by
  induction l with
  | nil => rfl
  | cons a l ih =>
      rw [List.map_cons, List.map_cons, List.sum_cons, List.sum_cons, toInt64_add_left,
        ← toInt64_add_right, ih, toInt64_add_right]

/-! ## Sums by request -/

/-- The cycles of a request's tiles. -/
def requestCycles (ti : List ℤ) (c : ℕ → ℕ) (r : ℕ) : ℕ :=
  (((List.range ti.length).filter fun k => ti.getD k 0 = r).map c).sum

theorem sum_requestCycles {ti : List ℤ} {n : ℕ} (hti : ∀ i ∈ ti, IsRequest n i) (c : ℕ → ℕ) :
    ∑ r ∈ Finset.range n, requestCycles ti c r = ((List.range ti.length).map c).sum := by
  refine sum_filter_key (fun k hk => ?_) c
  rw [List.getD_eq_getElem _ _ (List.mem_range.1 hk)]
  exact hti _ (List.getElem_mem _)

/-! ## The fold -/

/-- A map together with the rows of its tiles, by tile. -/
theorem zip_take_eq (ti : List ℤ) {N : ℕ} (hN : ti.length ≤ N) (f : ℕ → ℤ) :
    ti.zip (((List.range N).map f).take ti.length)
      = (List.range ti.length).map fun k => (ti.getD k 0, f k) := by
  refine List.ext_getElem ?_ fun k h₁ h₂ => ?_
  · simp only [List.length_zip, List.length_take, List.length_map, List.length_range]
    omega
  · have hk : k < ti.length := by
      rw [List.length_map, List.length_range] at h₂
      exact h₂
    rw [List.getElem_zip, List.getElem_take, List.getElem_map, List.getElem_range, List.getElem_map,
      List.getElem_range, List.getD_eq_getElem _ _ hk]

/-- The rows of a launch added up by request. -/
theorem perRequest_some {ti : List ℤ} {n N : ℕ} (hti : ∀ i ∈ ti, IsRequest n i)
    (hN : ti.length ≤ N) {f : ℕ → ℤ} {c : ℕ → ℕ} (hf : ∀ k < ti.length, f k = toInt64 (c k)) :
    perRequest n ti.length (some ti) ((List.range N).map f)
      = some ((List.range n).map fun r => toInt64 (requestCycles ti c r)) := by
  have hm : min ti.length (min ((List.range N).map f).length ti.length) = ti.length := by
    rw [List.length_map, List.length_range]
    omega
  have hclamp : (ti.take ti.length).map (fun i => min (max i 0) (n - 1 : ℤ)) = ti := by
    rw [List.take_length]
    refine (List.map_congr_left fun i hi => ?_).trans (List.map_id ti)
    obtain ⟨hlo, hhi⟩ := hti i hi
    simp only [id_eq]
    omega
  have hvalid : ti.all (0 ≤ ·) = true := List.all_eq_true.2 fun i hi => decide_eq_true (hti i hi).1
  simp only [perRequest, hm, hclamp, hvalid, if_true]
  refine congrArg some (List.map_congr_left fun r _ => ?_)
  rw [sumInt64_eq, zip_take_eq ti hN f, List.filter_map, List.map_map]
  have hwrap : ((List.range ti.length).filter ((fun p : ℤ × ℤ => decide (p.1 = (r : ℤ))) ∘
      fun k => (ti.getD k 0, f k))).map (Prod.snd ∘ fun k => (ti.getD k 0, f k))
        = ((List.range ti.length).filter fun k => ti.getD k 0 = r).map fun k => toInt64 (c k) := by
    refine List.map_congr_left fun k hk => ?_
    exact hf k (List.mem_range.1 (List.mem_filter.1 hk).1)
  rw [hwrap, toInt64_sum_map, requestCycles, Nat.cast_list_sum, List.map_map]
  rfl

/-- Without a map: the first `n` rows, continued by zeros. -/
theorem perRequest_none (n T : ℕ) (cyc : List ℤ) :
    perRequest n T none cyc = some ((List.range n).map fun r => cyc.getD r 0) := by
  refine congrArg some (List.ext_getElem ?_ fun r h₁ h₂ => ?_)
  · simp only [List.length_append, List.length_take, List.length_replicate, List.length_map,
      List.length_range]
    omega
  · have hr : r < n := by
      rw [List.length_map, List.length_range] at h₂
      exact h₂
    rw [List.getElem_map, List.getElem_range]
    rcases Nat.lt_or_ge r cyc.length with hlt | hge
    · have htake : r < (cyc.take (min n cyc.length)).length := by
        rw [List.length_take]
        omega
      rw [List.getElem_append_left htake, List.getElem_take, List.getD_eq_getElem _ _ hlt]
    · have htake : (cyc.take (min n cyc.length)).length ≤ r := by
        rw [List.length_take]
        omega
      rw [List.getElem_append_right htake, List.getElem_replicate, List.getD_eq_default _ _ hge]

theorem toInt64_sum_nat {α : Type} (l : List α) (f : α → ℕ) :
    toInt64 (l.map fun a => toInt64 (f a)).sum = toInt64 (l.map f).sum := by
  rw [toInt64_sum_map, Nat.cast_list_sum, List.map_map]
  rfl

/-- Where the total fits, no term of the sum is wrapped. -/
theorem sum_map_toInt64 {α : Type} (l : List α) (f : α → ℕ) (h : (l.map f).sum < 2 ^ 63) :
    (l.map fun a => toInt64 (f a)).sum = (l.map f).sum := by
  have hterm : ∀ a ∈ l, toInt64 (f a) = f a := fun a ha =>
    toInt64_of_lt ((List.single_le_sum (by simp) _ (List.mem_map_of_mem ha)).trans_lt h)
  rw [List.map_congr_left hterm, Nat.cast_list_sum, List.map_map]
  rfl

/-! ## The launch -/

/-- The blocks of a launch return in the order `done`; each adds its cycles to the row of its task,
    unless the gate that it latched at entry was off. -/
def runTimed (C : Config) (R : RtSlots) (m : ByteMem) (task cycles : ℕ → ℕ) (done : List ℕ) :
    ByteMem :=
  done.foldl (fun m' b => emitTimer C R m' (readTimerOff R m) (task b) (cycles (task b))) m

/-- `read_timer`, as the `torch.int64` tensor that it returns. -/
def SchedPlane.readRows (p : SchedPlane) (m : ByteMem) : List ℤ :=
  (p.readTimer m).map fun v : ℕ => toInt64 v

variable {p : SchedPlane} {m : ByteMem} {C : Config}

/-- Returning blocks, by the tasks they served. -/
theorem row_foldl_emitTimer (hlaid : p.Laid) (hbase : 0 < p.base) (hchan : p.TimerChannelOk m)
    (hC : p.BakesTimer C) (tasks : List ℕ) (cycles : ℕ → ℕ) {t : ℕ} (ht : t < p.N) :
    (p.timerView (tasks.foldl (fun m t => emitTimer C p.slots m false t (cycles t)) m)).row t
      = ((p.timerView m).row t + tasks.count t * cycles t) % 2 ^ 64 := by
  induction tasks generalizing m with
  | nil =>
      have hlt : (p.timerView m).row t < 2 ^ 64 := by
        simp only [SchedPlane.timerView, if_pos ht]
        exact ByteMem.load_lt m _ 8
      rw [List.foldl_nil, List.count_nil, Nat.zero_mul, Nat.add_zero, Nat.mod_eq_of_lt hlt]
  | cons task tasks ih =>
      obtain ⟨hview, hchan'⟩ :=
        SchedPlane.timerView_emitTimer hlaid hbase hchan hC task (cycles task)
      rw [List.foldl_cons, ih hchan', hview]
      by_cases htask : t = task
      · subst htask
        simp only [ht, and_self, if_true, List.count_cons_self, Nat.mod_add_mod]
        congr 1
        ring
      · have hne : ¬ (t = task ∧ t < p.N) := fun h => htask h.1
        simp only [if_neg hne, List.count_cons_of_ne (Ne.symm htask)]

/-- **The rows are the cycles by tile**, whatever block served which and in which order they returned. -/
theorem readRows_runTimed (hlaid : p.Laid) (hbase : 0 < p.base) (hchan : p.TimerChannelOk m)
    (hC : p.BakesTimer C) (hon : (p.timerView m).on = true)
    (hclear : ∀ t < p.N, (p.timerView m).row t = 0) {T : ℕ} {task : ℕ → ℕ}
    (htask : PermutesBelow task T) {done : List ℕ} (hdone : done.Perm (List.range T))
    (cycles : ℕ → ℕ) :
    p.readRows (runTimed C p.slots m task cycles done)
      = (List.range p.N).map fun k => if k < T then toInt64 (cycles k) else 0 := by
  have hserved : (done.map task).Perm (List.range T) := by
    refine (hdone.map task).trans (Multiset.coe_eq_coe.1 ?_)
    exact PermutesBelow.map_range_iff.2 htask
  have hgate : readTimerOff p.slots m = false := by
    rw [SchedPlane.readTimerOff_slots hbase, hon]
    rfl
  have hrun : runTimed C p.slots m task cycles done
      = (done.map task).foldl (fun m t => emitTimer C p.slots m false t (cycles t)) m := by
    rw [runTimed, hgate, List.foldl_map]
  rw [SchedPlane.readRows, SchedPlane.readTimer, List.map_map]
  refine List.map_congr_left fun t ht => ?_
  have ht : t < p.N := List.mem_range.1 ht
  have hrow := row_foldl_emitTimer hlaid hbase hchan hC (done.map task) cycles ht
  rw [← hrun, hclear t ht, hserved.count_eq, List.nodup_range.count, Nat.zero_add] at hrow
  simp only [SchedPlane.timerView, if_pos ht, List.mem_range] at hrow
  rw [Function.comp_apply, hrow]
  by_cases hT : t < T
  · rw [if_pos hT, if_pos hT, Nat.one_mul, toInt64_mod]
  · rw [if_neg hT, if_neg hT, Nat.zero_mul, toInt64_mod, toInt64_of_lt (by norm_num), Nat.cast_zero]

/-- **The per-request fold.** For every launch over cleared rows with the timer on: with a tile map, the
    request gets the sum of its tiles' cycles, and all requests together that of the launch's rows, in
    64-bit integers, and the sums themselves where the launch's total fits; without one, the first rows,
    continued by zeros. No block-to-task map and no order of returning shows. -/
theorem perRequest_of_launch (hlaid : p.Laid) (hbase : 0 < p.base) (hchan : p.TimerChannelOk m)
    (hC : p.BakesTimer C) (hon : (p.timerView m).on = true)
    (hclear : ∀ t < p.N, (p.timerView m).row t = 0) {T : ℕ} (hT : T ≤ p.N) {task : ℕ → ℕ}
    (htask : PermutesBelow task T) {done : List ℕ} (hdone : done.Perm (List.range T))
    (cycles : ℕ → ℕ) (n : ℕ) :
    let cyc := p.readRows (runTimed C p.slots m task cycles done)
    cyc = ((List.range p.N).map fun k => if k < T then toInt64 (cycles k) else 0) ∧
      (∀ ti : List ℤ, ti.length = T → (∀ i ∈ ti, IsRequest n i) →
        ∃ rows, perRequest n T (some ti) cyc = some rows ∧ rows.length = n ∧
          (∀ r < n, rows.getD r 0 = toInt64 (requestCycles ti cycles r)) ∧
          toInt64 rows.sum = toInt64 (cyc.take T).sum ∧
          (((List.range T).map cycles).sum < 2 ^ 63 →
            (∀ r < n, rows.getD r 0 = requestCycles ti cycles r) ∧ rows.sum = (cyc.take T).sum)) ∧
      perRequest n T none cyc = some ((List.range n).map fun r => cyc.getD r 0) := by
  intro cyc
  have hcyc : cyc = (List.range p.N).map fun k => if k < T then toInt64 (cycles k) else 0 :=
    readRows_runTimed hlaid hbase hchan hC hon hclear htask hdone cycles
  refine ⟨hcyc, fun ti hlen hti => ?_, ?_⟩
  · subst hlen
    have htotal : ((List.range n).map (requestCycles ti cycles)).sum
        = ((List.range ti.length).map cycles).sum := by
      rw [sum_map_range, sum_requestCycles hti]
    have htake : cyc.take ti.length = (List.range ti.length).map fun k => toInt64 (cycles k) := by
      rw [hcyc, ← List.map_take, List.take_range, min_eq_left hT]
      exact List.map_congr_left fun k hk => if_pos (List.mem_range.1 hk)
    have hget : ∀ r < n, ((List.range n).map fun r => toInt64 (requestCycles ti cycles r)).getD r 0
        = toInt64 (requestCycles ti cycles r) := by
      intro r hr
      rw [List.getD_eq_getElem _ _ (by simpa using hr), List.getElem_map, List.getElem_range]
    have hrows := perRequest_some hti hT (c := cycles)
      (f := fun k => if k < ti.length then toInt64 (cycles k) else 0) fun k hk => if_pos hk
    rw [← hcyc] at hrows
    refine ⟨_, hrows, by simp, hget, ?_, fun hfits => ⟨fun r hr => ?_, ?_⟩⟩
    · rw [htake, toInt64_sum_nat, toInt64_sum_nat, htotal]
    · rw [hget r hr]
      refine toInt64_of_lt (lt_of_le_of_lt ?_ hfits)
      rw [← htotal]
      exact List.single_le_sum (by simp) _ (List.mem_map_of_mem (List.mem_range.2 hr))
    · rw [htake, sum_map_toInt64 _ _ hfits, sum_map_toInt64 _ _ (htotal ▸ hfits), htotal]
  · exact perRequest_none n T cyc

/-- A kernel with four rows in its arena, before any launch. -/
def fourRowPlane : SchedPlane := { N := 4, base := 4096 }

def fourRowKernel : Config := { maxTasks := 4 }

theorem readRows_fourRows {T : ℕ} {task : ℕ → ℕ} (htask : PermutesBelow task T) {done : List ℕ}
    (hdone : done.Perm (List.range T)) (cycles : ℕ → ℕ) :
    fourRowPlane.readRows (runTimed fourRowKernel fourRowPlane.slots ByteMem.zeroed task cycles done)
      = (List.range 4).map fun k => if k < T then toInt64 (cycles k) else 0 :=
  readRows_runTimed ⟨by decide, by simp [fourRowPlane], by simp [fourRowPlane], by simp [fourRowPlane]⟩
    (by decide) (fun e he => by simp [fourRowPlane] at he) ⟨rfl, rfl, rfl⟩ (by decide)
    (by decide) htask hdone cycles

/-- Three tiles of two requests, served in another order than their index order. -/
theorem perRequest_of_launch_split :
    ∃ rows, perRequest 2 3 (some [0, 1, 0]) (fourRowPlane.readRows (runTimed fourRowKernel
      fourRowPlane.slots ByteMem.zeroed (fun b => 2 - b) (fun k => k + 5) [1, 0, 2])) = some rows ∧
        rows.getD 0 0 = 12 := by
  have hlaunch := perRequest_of_launch (p := fourRowPlane) (m := ByteMem.zeroed) (C := fourRowKernel)
    ⟨by decide, by simp [fourRowPlane], by simp [fourRowPlane], by simp [fourRowPlane]⟩ (by decide)
    (fun e he => by simp [fourRowPlane] at he) ⟨rfl, rfl, rfl⟩ (by decide) (by decide) (T := 3)
    (by decide)
    (show PermutesBelow (fun b => 2 - b) 3 by decide) (show [1, 0, 2].Perm (List.range 3) by decide)
    (fun k => k + 5) 2
  obtain ⟨rows, hrows, -, hget, -⟩ := hlaunch.2.1 [0, 1, 0] rfl (by decide)
  exact ⟨rows, hrows, (hget 0 (by decide)).trans (by decide)⟩

/-- Two tiles of one request with 2 ^ 62 cycles each: the sum does not fit, and comes out negative. -/
theorem perRequest_overflows :
    ∃ row, perRequest 1 2 (some [0, 0]) (fourRowPlane.readRows (runTimed fourRowKernel
      fourRowPlane.slots ByteMem.zeroed id (fun _ => 2 ^ 62) [0, 1])) = some [row] ∧
        row ≠ 2 ^ 62 + 2 ^ 62 := by
  rw [readRows_fourRows (PermutesBelow.id 2) (show [0, 1].Perm (List.range 2) by decide)]
  exact ⟨-2 ^ 63, by decide, by decide⟩

end SchedPass
