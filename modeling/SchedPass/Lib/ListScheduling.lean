import Mathlib.Algebra.Group.Action.Defs
import Mathlib.Algebra.Order.BigOperators.Group.List
import Mathlib.Algebra.Order.Field.Basic
import Mathlib.Data.List.Induction
import Mathlib.Tactic.FieldSimp
import Mathlib.Tactic.Linarith
import SchedPass.Lib.JobOrders

set_option autoImplicit false

/-! # How good list scheduling is

Jobs that are handed out one after the other, each to a least loaded worker, are done within `2 - 1 / m`
times the time that `m` workers need at best (`makespan_le`), and within `4 / 3 - 1 / (3 * m)` times that
time when the longest jobs come first (`makespan_descending_le`). -/

universe u

variable {K : Type u}

/-! ## Schedules -/

section

variable [AddCommMonoid K] [LinearOrder K] {m : ℕ} {ts : List K} {t : K} {loads : List K}

/-- `m` workers can do the jobs within the time `c`. -/
def Fits (m : ℕ) (ts : List K) (c : K) : Prop :=
  ∃ parts : List (List K), parts.length = m ∧ parts.flatten.Perm ts ∧ ∀ p ∈ parts, p.sum ≤ c

theorem Fits.perm {ts' : List K} {c : K} (h : Fits m ts c) (hperm : ts.Perm ts') : Fits m ts' c := by
  obtain ⟨parts, hlen, hparts, hle⟩ := h
  exact ⟨parts, hlen, hparts.trans hperm, hle⟩

/-- The job goes to one worker, and none is less loaded. -/
theorem assignLeast_eq (hne : loads ≠ []) : ∃ l x r, loads = l ++ x :: r ∧ (∀ y ∈ loads, x ≤ y) ∧
    assignLeast t loads = l ++ (x + t) :: r := by
  induction loads with
  | nil => exact absurd rfl hne
  | cons load loads ih =>
      rw [assignLeast]
      split_ifs with hleast
      · exact ⟨[], load, loads, rfl, List.forall_mem_cons.2 ⟨le_rfl, hleast⟩, rfl⟩
      · push Not at hleast
        obtain ⟨y, hy, hlt⟩ := hleast
        obtain ⟨l, x, r, hloads, hx, hassign⟩ := ih (List.ne_nil_of_mem hy)
        refine ⟨load :: l, x, r, by rw [hloads]; rfl, ?_, by rw [hassign]; rfl⟩
        exact List.forall_mem_cons.2 ⟨(hx y hy).trans hlt.le, hx⟩

theorem listSchedule_concat : listSchedule m (ts ++ [t]) = assignLeast t (listSchedule m ts) := by
  rw [listSchedule, List.foldl_append]
  rfl

theorem length_assignLeast : (assignLeast t loads).length = loads.length := by
  induction loads with
  | nil => rfl
  | cons load loads ih =>
      rw [assignLeast]
      split_ifs
      · rfl
      · rw [List.length_cons, ih, List.length_cons]

@[simp] theorem length_listSchedule (m : ℕ) (ts : List K) : (listSchedule m ts).length = m := by
  induction ts using List.reverseRecOn with
  | nil => exact List.length_replicate
  | append_singleton ts t ih => rw [listSchedule_concat, length_assignLeast, ih]

theorem listSchedule_ne_nil (hm : 0 < m) (ts : List K) : listSchedule m ts ≠ [] :=
  List.ne_nil_of_length_pos (by rwa [length_listSchedule])

/-- The loads are those of a distribution of the jobs. -/
theorem exists_parts (hm : 0 < m) (ts : List K) : ∃ parts : List (List K), parts.length = m ∧
    parts.flatten.Perm ts ∧ parts.map List.sum = listSchedule m ts := by
  induction ts using List.reverseRecOn with
  | nil => exact ⟨List.replicate m [], by simp, by simp, by simp [listSchedule]⟩
  | append_singleton ts t ih =>
      obtain ⟨parts, hlen, hperm, hsums⟩ := ih
      obtain ⟨l, x, r, hloads, -, hassign⟩ := assignLeast_eq (listSchedule_ne_nil hm ts) (t := t)
      rw [hloads] at hsums
      obtain ⟨pl, rest, rfl, rfl, hrest⟩ := List.map_eq_append_iff.1 hsums
      obtain ⟨p, pr, rfl, rfl, rfl⟩ := List.map_eq_cons_iff.1 hrest
      refine ⟨pl ++ (p ++ [t]) :: pr, by simpa using hlen, ?_, ?_⟩
      · refine List.Perm.trans ?_ (hperm.append_right [t])
        simp only [List.flatten_append, List.flatten_cons, List.append_assoc]
        exact ((List.perm_append_comm).append_left p).append_left pl.flatten
      · rw [listSchedule_concat, hassign]
        simp

/-- When every job is done in time that a least loaded worker takes on, all jobs are. -/
theorem makespan_le_of_forall (hm : 0 < m) {c : K} (hc : 0 ≤ c) (ts : List K)
    (h : ∀ pre t post, ts = pre ++ t :: post → ∀ x ∈ listSchedule m pre,
      (∀ y ∈ listSchedule m pre, x ≤ y) → x + t ≤ c) : makespan m ts ≤ c := by
  suffices hloads : ∀ y ∈ listSchedule m ts, y ≤ c by
    unfold makespan
    revert hloads
    generalize listSchedule m ts = loads
    intro hloads
    induction loads with
    | nil => exact hc
    | cons load loads ih =>
        obtain ⟨hload, hloads⟩ := List.forall_mem_cons.1 hloads
        exact max_le hload (ih hloads)
  induction ts using List.reverseRecOn with
  | nil =>
      intro y hy
      rw [List.eq_of_mem_replicate hy]
      exact hc
  | append_singleton ts t ih =>
      have hbefore := ih fun pre t' post hts => h pre t' (post ++ [t]) (by rw [hts]; simp)
      obtain ⟨l, x, r, hloads, hx, hassign⟩ := assignLeast_eq (listSchedule_ne_nil hm ts) (t := t)
      have hmem : ∀ {y}, y ∈ l ++ x :: r → y ∈ listSchedule m ts := fun hy => hloads ▸ hy
      intro y hy
      rw [listSchedule_concat, hassign, List.mem_append, List.mem_cons] at hy
      rcases hy with hy | rfl | hy
      · exact hbefore y (hmem (List.mem_append_left _ hy))
      · exact h ts t [] rfl x (hmem (by simp)) hx
      · exact hbefore y (hmem (by simp [hy]))

omit [LinearOrder K] in
theorem sum_parts {parts : List (List K)} (h : parts.flatten.Perm ts) :
    (parts.map List.sum).sum = ts.sum := by
  rw [← List.sum_flatten, h.sum_eq]

end

/-! ## Bounds -/

section

variable [Field K] [LinearOrder K] [IsStrictOrderedRing K] {m : ℕ} {ts pre post : List K} {t c x : K}

/-- No `m` workers have more than `m` times the time. -/
theorem Fits.sum_le (h : Fits m ts c) : ts.sum ≤ m * c := by
  obtain ⟨parts, rfl, hperm, hle⟩ := h
  rw [← sum_parts hperm, ← List.length_map List.sum, ← nsmul_eq_mul]
  refine List.sum_le_card_nsmul _ _ fun y hy => ?_
  obtain ⟨p, hp, rfl⟩ := List.mem_map.1 hy
  exact hle p hp

/-- A job takes no longer than everything its worker does. -/
theorem Fits.le (h : Fits m ts c) (hnonneg : ∀ t ∈ ts, 0 ≤ t) (ht : t ∈ ts) : t ≤ c := by
  obtain ⟨parts, -, hperm, hle⟩ := h
  obtain ⟨p, hp, htp⟩ := List.mem_flatten.1 (hperm.mem_iff.2 ht)
  refine (List.single_le_sum (fun y hy => ?_) t htp).trans (hle p hp)
  exact hnonneg y (hperm.subset (List.mem_flatten.2 ⟨p, hp, hy⟩))

/-- A least load is at most the average. -/
theorem mul_least_le (hm : 0 < m) (hx : ∀ y ∈ listSchedule m pre, x ≤ y) : m * x ≤ pre.sum := by
  obtain ⟨parts, hlen, hperm, hsums⟩ := exists_parts hm pre
  rw [← sum_parts hperm, hsums, ← nsmul_eq_mul]
  have hcard := List.card_nsmul_le_sum (listSchedule m pre) x hx
  rwa [length_listSchedule] at hcard

/-- When a job is done that is handed to a least loaded worker. -/
theorem mul_start_le (hm : 0 < m) (hnonneg : ∀ t ∈ ts, 0 ≤ t) (hts : ts = pre ++ t :: post)
    (hx : ∀ y ∈ listSchedule m pre, x ≤ y) : m * (x + t) ≤ ts.sum + (m - 1) * t := by
  have hleast := mul_least_le hm hx
  have hsum : ts.sum = pre.sum + t + post.sum := by
    rw [hts, List.sum_append, List.sum_cons, add_assoc]
  have hpost : 0 ≤ post.sum := List.sum_nonneg fun y hy => hnonneg y (by simp [hts, hy])
  linarith

/-- **No order is later than the average and most of a job.** -/
theorem makespan_le_average (hm : 0 < m) (hnonneg : ∀ t ∈ ts, 0 ≤ t) (hc : 0 ≤ c)
    (hle : ∀ t ∈ ts, t ≤ c) : makespan m ts ≤ (ts.sum + (m - 1) * c) / m := by
  have hm' : (1 : K) ≤ m := by exact_mod_cast hm
  have hpos : (0 : K) < m := by linarith
  have hrest : 0 ≤ (m - 1) * c := mul_nonneg (by linarith) hc
  refine makespan_le_of_forall hm ?_ ts fun pre t post hts x _ hx => ?_
  · exact div_nonneg (add_nonneg (List.sum_nonneg hnonneg) hrest) hpos.le
  · rw [le_div_iff₀ hpos, mul_comm]
    have ht : t ≤ c := hle t (by simp [hts])
    have hlast := mul_le_mul_of_nonneg_left ht (show (0 : K) ≤ m - 1 by linarith)
    exact (mul_start_le hm hnonneg hts hx).trans (by linarith)

theorem Fits.nonneg (h : Fits m ts c) (hm : 0 < m) (hnonneg : ∀ t ∈ ts, 0 ≤ t) : 0 ≤ c := by
  have hsum := (List.sum_nonneg hnonneg).trans h.sum_le
  exact nonneg_of_mul_nonneg_right hsum (by exact_mod_cast hm)

/-- **Any order.** Whatever order the jobs are handed out in, they are done within `2 - 1 / m` times any
    time that they can be done in. -/
theorem makespan_le (hm : 0 < m) (hnonneg : ∀ t ∈ ts, 0 ≤ t) (hfits : Fits m ts c) :
    makespan m ts ≤ (2 - 1 / m) * c := by
  have hpos : (0 : K) < m := by exact_mod_cast hm
  have hbound : (2 - 1 / m) * c = (m * c + (m - 1) * c) / m := by
    field_simp
    ring
  rw [hbound]
  refine (makespan_le_average hm hnonneg (hfits.nonneg hm hnonneg) fun t ht =>
    hfits.le hnonneg ht).trans ?_
  exact div_le_div_of_nonneg_right (by linarith [hfits.sum_le]) hpos.le

/-! ## Longest first -/

/-- How much of a worker a job takes up when `t` is the shortest job that counts, three such jobs take
    longer than `c`, and `2` is all of a worker. -/
def share (t c x : K) : ℕ := if t ≤ x then if x + t ≤ c then 1 else 2 else 0

omit [IsStrictOrderedRing K] in
theorem sum_share_filter (p : List K) :
    (p.map (share t c)).sum = ((p.filter (t ≤ ·)).map (share t c)).sum := by
  induction p with
  | nil => rfl
  | cons y p ih =>
      by_cases hy : t ≤ y
      · simp [hy, ih]
      · simp [hy, ih, share]

/-- What is done within `c` is at most a worker's share. -/
theorem sum_share_le {p : List K} (hnonneg : ∀ y ∈ p, 0 ≤ y) (hsum : p.sum ≤ c) (ht : c < 3 * t) :
    (p.map (share t c)).sum ≤ 2 := by
  have hle : (p.filter (t ≤ ·)).sum ≤ p.sum := List.Sublist.sum_le_sum List.filter_sublist hnonneg
  have hmin : ∀ y ∈ p.filter (t ≤ ·), t ≤ y := fun y hy => by simpa using (List.mem_filter.1 hy).2
  have hpos : ∀ y ∈ p.filter (t ≤ ·), 0 ≤ y := fun y hy => hnonneg y (List.mem_filter.1 hy).1
  rw [sum_share_filter]
  generalize p.filter (t ≤ ·) = q at hle hmin hpos
  match q with
  | [] => simp
  | [y] =>
      rw [List.map_singleton, List.sum_singleton, share]
      split_ifs <;> omega
  | [y, z] =>
      simp only [List.mem_cons, List.not_mem_nil, or_false, forall_eq_or_imp, forall_eq,
        List.sum_cons, List.sum_nil, add_zero] at hle hmin
      have hy : y + t ≤ c := by linarith
      have hz : z + t ≤ c := by linarith
      simp [share, hmin, hy, hz]
  | y :: z :: w :: q =>
      have hq : 0 ≤ q.sum := List.sum_nonneg fun v hv => hpos v (by simp [hv])
      simp only [List.mem_cons, forall_eq_or_imp, List.sum_cons] at hle hmin
      linarith

omit [IsStrictOrderedRing K] in
/-- A worker that cannot take `t` on has its share. -/
theorem le_sum_share {p : List K} (hmin : ∀ y ∈ p, t ≤ y) (hle : t ≤ c) (hsum : c < p.sum + t) :
    2 ≤ (p.map (share t c)).sum := by
  match p with
  | [] =>
      rw [List.sum_nil, zero_add] at hsum
      exact absurd hsum (not_lt.2 hle)
  | [y] =>
      rw [List.sum_singleton] at hsum
      simp [share, hmin y (by simp), not_le.2 hsum]
  | y :: z :: p =>
      have hone : ∀ v, t ≤ v → 1 ≤ share t c v := by
        intro v hv
        rw [share, if_pos hv]
        split_ifs <;> omega
      have hy := hone y (hmin y (by simp))
      have hz := hone z (hmin z (by simp))
      simp only [List.map_cons, List.sum_cons]
      omega

omit [IsStrictOrderedRing K] in
theorem sum_share_parts {parts : List (List K)} (h : parts.flatten.Perm ts) :
    (parts.map fun p => (p.map (share t c)).sum).sum = (ts.map (share t c)).sum := by
  rw [← (h.map _).sum_eq, List.map_flatten, List.sum_flatten, List.map_map]
  rfl

/-- **A long job is not late**: where no worker has time for three such jobs, a job that comes before
    all shorter ones is done in time. -/
theorem start_le_of_long (hm : 0 < m) (hnonneg : ∀ t ∈ ts, 0 ≤ t) (hdesc : ts.Pairwise (· ≥ ·))
    (hts : ts = pre ++ t :: post) (hfits : Fits m ts c) (hx : ∀ y ∈ listSchedule m pre, x ≤ y)
    (ht : c < 3 * t) : x + t ≤ c := by
  by_contra hlate
  have hlate := not_le.1 hlate
  have htc : t ≤ c := hfits.le hnonneg (by simp [hts])
  have hmin : ∀ y ∈ pre, t ≤ y := by
    rw [hts, List.pairwise_append] at hdesc
    exact fun y hy => hdesc.2.2 y hy t (List.mem_cons_self ..)
  -- before the job, no worker can take it on
  have hgreedy : 2 * m ≤ (pre.map (share t c)).sum := by
    obtain ⟨parts, hlen, hperm, hsums⟩ := exists_parts hm pre
    have hcard := List.card_nsmul_le_sum (parts.map fun p => (p.map (share t c)).sum) 2 fun y hy => by
      obtain ⟨p, hp, rfl⟩ := List.mem_map.1 hy
      refine le_sum_share (fun z hz => ?_) htc ?_
      · exact hmin z (hperm.subset (List.mem_flatten.2 ⟨p, hp, hz⟩))
      · have hload := hx p.sum (hsums ▸ List.mem_map_of_mem hp)
        linarith
    rw [sum_share_parts hperm, List.length_map, hlen, smul_eq_mul] at hcard
    omega
  -- so there is one share too many for any way to do the jobs
  have hany : (ts.map (share t c)).sum ≤ 2 * m := by
    obtain ⟨parts, hlen, hperm, hle⟩ := hfits
    have hcard := List.sum_le_card_nsmul (parts.map fun p => (p.map (share t c)).sum) 2 fun y hy => by
      obtain ⟨p, hp, rfl⟩ := List.mem_map.1 hy
      refine sum_share_le (fun z hz => ?_) (hle p hp) ht
      exact hnonneg z (hperm.subset (List.mem_flatten.2 ⟨p, hp, hz⟩))
    rw [sum_share_parts hperm, List.length_map, hlen, smul_eq_mul] at hcard
    omega
  have hone : 1 ≤ share t c t := by
    rw [share, if_pos le_rfl]
    split_ifs <;> omega
  rw [hts, List.map_append, List.sum_append, List.map_cons, List.sum_cons] at hany
  omega

/-- **Longest first.** Handed out by descending duration, the jobs are done within `4 / 3 - 1 / (3 * m)`
    times any time that they can be done in. -/
theorem makespan_descending_le (hm : 0 < m) (hnonneg : ∀ t ∈ ts, 0 ≤ t)
    (hdesc : ts.Pairwise (· ≥ ·)) (hfits : Fits m ts c) :
    makespan m ts ≤ (4 / 3 - 1 / (3 * m)) * c := by
  have hm' : (1 : K) ≤ m := by exact_mod_cast hm
  have hpos : (0 : K) < m := by linarith
  have hbound : (4 / 3 - 1 / (3 * m)) * c = (m * c + (m - 1) * (c / 3)) / m := by
    field_simp
    ring
  rw [hbound]
  have hc := hfits.nonneg hm hnonneg
  have hrest : 0 ≤ (m - 1) * (c / 3) := mul_nonneg (by linarith) (by linarith)
  refine makespan_le_of_forall hm ?_ ts fun pre t post hts x _ hx => ?_
  · exact div_nonneg (add_nonneg (by positivity) hrest) hpos.le
  · rw [le_div_iff₀ hpos, mul_comm]
    by_cases ht : c < 3 * t
    · have hstart := start_le_of_long hm hnonneg hdesc hts hfits hx ht
      exact (mul_le_mul_of_nonneg_left hstart hpos.le).trans (le_add_of_nonneg_right hrest)
    · have hshort : t ≤ c / 3 := by linarith
      have hlast := mul_le_mul_of_nonneg_left hshort (show (0 : K) ≤ m - 1 by linarith)
      have htotal := hfits.sum_le
      exact (mul_start_le hm hnonneg hts hx).trans (by linarith)

end
