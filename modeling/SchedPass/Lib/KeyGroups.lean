import Mathlib.Algebra.BigOperators.Group.Finset.Piecewise
import Mathlib.Algebra.BigOperators.Ring.Finset
import Mathlib.Algebra.Order.BigOperators.Group.Finset
import Mathlib.Data.List.GetD
import Mathlib.Data.List.Range
import Mathlib.Data.List.Sort

set_option autoImplicit false

/-! # Grouping by key

The groups of a list by key add up to the list (`sum_filter_key`). Inside a group the indices are ranked
0, 1, 2 and so on (`map_rank_filter_range`). A stable sort by key puts an index behind all smaller keys
and behind the earlier indices of its own group (`pairwise_argsortStable`), so its place, less the number
of smaller keys, is its rank (`argsortStable_place`); scattering a function of the sorted indices back to
where they came from gives that function (`scatter_map`). -/

universe u v w

/-! ## The places of a list -/

/-- A list read at its places. -/
theorem map_range_getD {α : Type u} (l : List α) (d : α) {f : ℕ → α}
    (h : ∀ i < l.length, f i = l.getD i d) : (List.range l.length).map f = l := by
  refine List.ext_getElem (by simp) fun i h₁ h₂ => ?_
  rw [List.getElem_map, List.getElem_range, h i h₂, List.getD_eq_getElem _ _ h₂]

theorem countP_range_getD {α : Type u} (l : List α) (d : α) (P : α → Bool) :
    (List.range l.length).countP (fun i => P (l.getD i d)) = l.countP P := by
  have hmap := map_range_getD l d fun _ _ => rfl
  conv_rhs => rw [← hmap, List.countP_map]
  rfl

theorem count_true_map {α : Type u} (l : List α) (f : α → Bool) : (l.map f).count true = l.countP f := by
  rw [List.count, List.countP_map]
  exact List.countP_congr fun i _ => by simp

section Place

variable {α : Type u} {r : α → α → Prop} [DecidableRel r]

/-- In a list that is ordered strictly, the place of an element is the number of elements before it. -/
theorem countP_getElem_of_pairwise (hasymm : ∀ a b, r a b → ¬r b a) {l : List α} (h : l.Pairwise r)
    {p : ℕ} (hp : p < l.length) : l.countP (fun b => decide (r b l[p])) = p := by
  induction l generalizing p with
  | nil => exact absurd hp (Nat.not_lt_zero p)
  | cons a l ih =>
      obtain ⟨ha, hl⟩ := List.pairwise_cons.1 h
      cases p with
      | zero =>
          have hself : ¬r a a := fun haa => hasymm a a haa haa
          have hnone : l.countP (fun b => decide (r b a)) = 0 :=
            List.countP_eq_zero.2 fun b hb => by simpa using hasymm a b (ha b hb)
          rw [List.getElem_cons_zero, List.countP_cons_of_neg (by simpa using hself), hnone]
      | succ p =>
          have hp : p < l.length := Nat.lt_of_succ_lt_succ hp
          rw [List.getElem_cons_succ, List.countP_cons_of_pos (by simpa using ha _ (List.getElem_mem hp)),
            ih hl hp]

end Place

/-! ## Groups -/

theorem sum_map_range {α : Type} [AddCommMonoid α] (n : ℕ) (f : ℕ → α) :
    ((List.range n).map f).sum = ∑ k ∈ Finset.range n, f k := by
  simp [Finset.sum, Multiset.range]

/-- Every element counts for the group of its key. -/
theorem sum_filter_key {ι : Type u} {n : ℕ} {key : ι → ℤ} {l : List ι}
    (hkey : ∀ k ∈ l, 0 ≤ key k ∧ key k < n) (c : ι → ℕ) :
    ∑ e ∈ Finset.range n, ((l.filter fun k => key k = e).map c).sum = (l.map c).sum := by
  induction l with
  | nil => simp
  | cons k l ih =>
      obtain ⟨hlo, hhi⟩ := hkey k List.mem_cons_self
      obtain ⟨j, hj⟩ := Int.eq_ofNat_of_zero_le hlo
      have hsplit : ∀ e : ℕ, (((k :: l).filter fun k => key k = e).map c).sum
          = (if j = e then c k else 0) + ((l.filter fun k => key k = e).map c).sum := by
        intro e
        rw [List.filter_cons, hj]
        by_cases he : j = e
        · simp [he]
        · have hne : ¬ ((j : ℤ) = e) := by exact_mod_cast he
          simp [he, hne]
      rw [Finset.sum_congr rfl fun e _ => hsplit e, Finset.sum_add_distrib,
        ih fun k' hk' => hkey k' (List.mem_cons_of_mem _ hk'), List.map_cons, List.sum_cons,
        Finset.sum_ite_eq, if_pos (Finset.mem_range.2 (by omega))]

theorem countP_eq_sum {ι : Type u} (l : List ι) (P : ι → Bool) :
    l.countP P = (l.map fun k => if P k then 1 else 0).sum := by
  induction l with
  | nil => rfl
  | cons k l ih =>
      rw [List.countP_cons, ih, List.map_cons, List.sum_cons, Nat.add_comm]

/-- The same for a count. -/
theorem sum_countP_filter_key {ι : Type u} {n : ℕ} {key : ι → ℤ} {l : List ι}
    (hkey : ∀ k ∈ l, 0 ≤ key k ∧ key k < n) (P : ι → Bool) :
    ∑ e ∈ Finset.range n, (l.filter fun k => key k = e).countP P = l.countP P := by
  simp only [countP_eq_sum]
  exact sum_filter_key hkey _

/-- The elements of the groups below `e`. -/
theorem sum_map_count {l : List ℤ} (hl : ∀ k ∈ l, 0 ≤ k) (e : ℕ) :
    ((List.range e).map fun j : ℕ => l.count (j : ℤ)).sum = l.countP (· < (e : ℤ)) := by
  have hlow : ∀ k ∈ l.filter (· < (e : ℤ)), 0 ≤ k ∧ k < (e : ℤ) := by
    intro k hk
    obtain ⟨hk, hlt⟩ := List.mem_filter.1 hk
    exact ⟨hl k hk, of_decide_eq_true hlt⟩
  have hsum := sum_countP_filter_key hlow fun _ => true
  rw [List.countP_true, ← List.countP_eq_length_filter] at hsum
  rw [← hsum, sum_map_range]
  refine Finset.sum_congr rfl fun j hj => ?_
  have hj : j < e := Finset.mem_range.1 hj
  rw [List.filter_filter, ← List.countP_eq_length_filter, List.count]
  refine List.countP_congr fun k _ => ?_
  simp only [beq_iff_eq, Bool.and_eq_true, decide_eq_true_eq]
  exact ⟨fun h => ⟨h, by omega⟩, And.left⟩

/-- The ranks of the indices of a kind: 0, 1, 2 and so on. -/
theorem map_rank_filter_range (P : ℕ → Bool) (n : ℕ) :
    ((List.range n).filter P).map (fun i => (List.range i).countP P)
      = List.range ((List.range n).countP P) := by
  induction n with
  | zero => rfl
  | succ n ih =>
      rw [List.range_succ, List.filter_append, List.map_append, ih, List.countP_append]
      cases hP : P n <;> simp [hP, List.range_succ]

/-- The first `C` indices of a kind have a rank below `C`. -/
theorem mem_take_filter_range {P : ℕ → Bool} {n C i : ℕ} :
    i ∈ ((List.range n).filter P).take C ↔
      i < n ∧ P i = true ∧ (List.range i).countP P < C := by
  have hrank : ∀ p (hp : p < ((List.range n).filter P).length),
      (List.range (((List.range n).filter P)[p])).countP P = p := by
    intro p hp
    have hlen : p < (List.range n).countP P := by rwa [List.countP_eq_length_filter]
    have hget := congrArg (·[p]?) (map_rank_filter_range P n)
    simp only [List.getElem?_map, List.getElem?_eq_getElem hp, Option.map_some] at hget
    exact Option.some.inj (hget.trans (List.getElem?_range hlen))
  rw [List.mem_take_iff_getElem]
  constructor
  · rintro ⟨p, hp, rfl⟩
    have hlen : p < ((List.range n).filter P).length := by omega
    have hmem := List.getElem_mem hlen
    rw [List.mem_filter, List.mem_range] at hmem
    exact ⟨hmem.1, hmem.2, by rw [hrank p hlen]; omega⟩
  · rintro ⟨hi, hP, hlt⟩
    obtain ⟨p, hp, rfl⟩ := List.getElem_of_mem (List.mem_filter.2 ⟨List.mem_range.2 hi, hP⟩)
    rw [hrank p hp] at hlt
    exact ⟨p, by omega, rfl⟩

/-! ## Stable sorting of indices -/

section Argsort

variable {K : Type v} [LinearOrder K] (key : ℕ → K)

/-- The indices below `n` by ascending key, equal keys in the order of the indices. -/
def argsortStable (n : ℕ) : List ℕ := (List.range n).insertionSort fun i j => key i ≤ key j

/-- By key, and by index where the keys are equal. -/
def KeyedBefore (i j : ℕ) : Prop := key i < key j ∨ key i = key j ∧ i < j

instance : DecidableRel (KeyedBefore key) := fun _ _ => inferInstanceAs (Decidable (_ ∨ _))

variable {key}

theorem KeyedBefore.asymm (i j : ℕ) (h : KeyedBefore key i j) : ¬KeyedBefore key j i := by
  rintro (hlt | ⟨heq, hlt⟩)
  · rcases h with h | ⟨h, -⟩
    · exact lt_asymm h hlt
    · exact hlt.ne h.symm
  · rcases h with h | ⟨-, h⟩
    · exact h.ne heq.symm
    · exact Nat.lt_asymm h hlt

theorem KeyedBefore.le {i j : ℕ} (h : KeyedBefore key i j) : key i ≤ key j := by
  rcases h with h | ⟨h, -⟩
  · exact h.le
  · exact h.le

theorem KeyedBefore.of_le {i j : ℕ} (hkey : key i ≤ key j) (hij : i < j) : KeyedBefore key i j := by
  rcases hkey.lt_or_eq with h | h
  · exact .inl h
  · exact .inr ⟨h, hij⟩

/-- An index that is smaller than all goes ahead of its equals. -/
theorem pairwise_orderedInsert {i : ℕ} {l : List ℕ} (hl : l.Pairwise (KeyedBefore key))
    (hi : ∀ j ∈ l, i < j) :
    (l.orderedInsert (fun i j => key i ≤ key j) i).Pairwise (KeyedBefore key) := by
  induction l with
  | nil => exact List.pairwise_singleton _ _
  | cons j l ih =>
      obtain ⟨hj, hl⟩ := List.pairwise_cons.1 hl
      obtain ⟨hij, hi⟩ := List.forall_mem_cons.1 hi
      rw [List.orderedInsert_cons]
      split
      · next hkey =>
          refine List.pairwise_cons.2 ⟨?_, List.pairwise_cons.2 ⟨hj, hl⟩⟩
          rw [List.forall_mem_cons]
          exact ⟨.of_le hkey hij, fun k hk => .of_le (hkey.trans (hj k hk).le) (hi k hk)⟩
      · next hkey =>
          refine List.pairwise_cons.2 ⟨fun k hk => ?_, ih hl hi⟩
          rcases List.mem_orderedInsert _ |>.1 hk with rfl | hk
          · exact .inl (not_le.1 hkey)
          · exact hj k hk

theorem pairwise_insertionSort_keyed {l : List ℕ} (hl : l.Pairwise (· < ·)) :
    (l.insertionSort fun i j => key i ≤ key j).Pairwise (KeyedBefore key) := by
  induction l with
  | nil => exact List.Pairwise.nil
  | cons i l ih =>
      obtain ⟨hi, hl⟩ := List.pairwise_cons.1 hl
      rw [List.insertionSort_cons]
      exact pairwise_orderedInsert (ih hl) fun j hj => hi j ((List.mem_insertionSort _).1 hj)

variable (key)

/-- **The sort is stable.** -/
theorem pairwise_argsortStable (n : ℕ) : (argsortStable key n).Pairwise (KeyedBefore key) :=
  pairwise_insertionSort_keyed List.pairwise_lt_range

theorem argsortStable_perm (n : ℕ) : (argsortStable key n).Perm (List.range n) :=
  List.perm_insertionSort _ _

/-- **The place of an index**: the smaller keys, and the earlier indices of the same key. -/
theorem argsortStable_place {n p : ℕ} (hp : p < (argsortStable key n).length) :
    p = (List.range n).countP (fun j => decide (key j < key (argsortStable key n)[p]))
      + (List.range (argsortStable key n)[p]).countP
          (fun j => decide (key j = key (argsortStable key n)[p])) := by
  have hcount := countP_getElem_of_pairwise KeyedBefore.asymm (pairwise_argsortStable key n) hp
  rw [(argsortStable_perm key n).countP_eq] at hcount
  have hi : (argsortStable key n)[p] < n :=
    List.mem_range.1 ((argsortStable_perm key n).mem_iff.1 (List.getElem_mem hp))
  generalize (argsortStable key n)[p] = i at hcount hi ⊢
  obtain ⟨k, rfl⟩ := Nat.exists_eq_add_of_le hi.le
  -- an index from `i` on is before `i` by its key only
  have hhigh : ((List.range k).map (i + ·)).countP (fun j => decide (KeyedBefore key j i))
      = ((List.range k).map (i + ·)).countP (fun j => decide (key j < key i)) :=
    List.countP_congr fun j hj => by
      obtain ⟨m, -, rfl⟩ := List.mem_map.1 hj
      rw [decide_eq_true_iff, decide_eq_true_iff]
      exact ⟨fun h => h.resolve_right fun h => absurd h.2 (Nat.not_lt.2 (Nat.le_add_right i m)), .inl⟩
  have hlow : (List.range i).countP (fun j => decide (KeyedBefore key j i))
      = (List.range i).countP (fun j => decide (key j < key i))
        + (List.range i).countP (fun j => decide (key j = key i)) := by
    rw [List.countP_eq_countP_filter_add _ _ fun j => decide (key j < key i), List.countP_filter,
      List.countP_filter]
    congr 1
    · refine List.countP_congr fun j _ => ?_
      simp only [Bool.and_eq_true, decide_eq_true_eq]
      exact ⟨And.right, fun h => ⟨.inl h, h⟩⟩
    · refine List.countP_congr fun j hj => ?_
      simp only [Bool.and_eq_true, Bool.not_eq_true', decide_eq_true_eq, decide_eq_false_iff_not]
      constructor
      · rintro ⟨h | ⟨h, -⟩, hnot⟩
        · exact absurd h hnot
        · exact h
      · exact fun h => ⟨.inr ⟨h, List.mem_range.1 hj⟩, h.not_lt⟩
  rw [List.range_add, List.countP_append, hhigh, hlow] at hcount
  rw [List.range_add, List.countP_append]
  omega

end Argsort

/-! ## Scattering -/

section Scatter

variable {β : Type w}

/-- `init[idx] = vals`. -/
def scatter (init : List β) (idx : List ℕ) (vals : List β) : List β :=
  (idx.zip vals).foldl (fun l e => l.set e.1 e.2) init

theorem length_scatter (init : List β) (idx : List ℕ) (vals : List β) :
    (scatter init idx vals).length = init.length := by
  rw [scatter]
  induction idx.zip vals generalizing init with
  | nil => rfl
  | cons e l ih => rw [List.foldl_cons, ih, List.length_set]

theorem getElem?_scatter_map (init : List β) (idx : List ℕ) (g : ℕ → β) (i : ℕ) :
    (scatter init idx (idx.map g))[i]? = if i ∈ idx ∧ i < init.length then some (g i) else init[i]? := by
  induction idx generalizing init with
  | nil => simp [scatter]
  | cons j idx ih =>
      have hstep : scatter init (j :: idx) ((j :: idx).map g) = scatter (init.set j (g j)) idx (idx.map g) :=
        rfl
      rw [hstep, ih, List.length_set, List.getElem?_set]
      by_cases hij : j = i
      · subst hij
        by_cases hj : j < init.length
        · simp [hj]
        · simp [hj]
      · simp [hij, Ne.symm hij]

/-- **Scattered over all indices**, a function of the index is that function. -/
theorem scatter_map {init : List β} {idx : List ℕ} (hperm : idx.Perm (List.range init.length))
    (g : ℕ → β) : scatter init idx (idx.map g) = (List.range init.length).map g := by
  refine List.ext_getElem? fun i => ?_
  have hmem : i ∈ idx ↔ i < init.length := by rw [hperm.mem_iff, List.mem_range]
  rw [getElem?_scatter_map, List.getElem?_map]
  by_cases hi : i < init.length
  · simp [hmem, hi]
  · simp [hi]

end Scatter
