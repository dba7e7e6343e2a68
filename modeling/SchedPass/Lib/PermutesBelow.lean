import Mathlib.Data.Set.Finite.Lemmas
import Mathlib.Data.Multiset.Range
import Mathlib.Data.Multiset.MapFold
import Mathlib.Data.Finset.Card
import Mathlib.Order.Interval.Set.Basic
import Mathlib.Order.Interval.Finset.Nat

set_option autoImplicit false

/-! # Maps that permute an initial segment

`PermutesBelow f n` says that `f` restricts to a bijection of `[0, n)`. It is the common currency of
order tables (the first `n` entries are a permutation), of block-to-task maps (every task is served
by exactly one block) and of multisets of served tasks (`map_range_iff`). -/

/-- `f` is a bijection of `[0, n)`. -/
def PermutesBelow (f : ℕ → ℕ) (n : ℕ) : Prop :=
  Set.BijOn f (Set.Iio n) (Set.Iio n)

variable {f g : ℕ → ℕ} {m n : ℕ}

/-- On a finite segment, staying inside and not repeating a value is enough. -/
theorem permutesBelow_iff :
    PermutesBelow f n ↔ (∀ i < n, f i < n) ∧ ∀ i < n, ∀ j < n, f i = f j → i = j := by
  constructor
  · intro h
    exact ⟨fun i hi => h.mapsTo hi, fun i hi j hj hij => h.injOn hi hj hij⟩
  · rintro ⟨hlt, hinj⟩
    have hmaps : Set.MapsTo f (Set.Iio n) (Set.Iio n) := fun i hi => hlt i hi
    have hon : Set.InjOn f (Set.Iio n) := fun i hi j hj hij => hinj i hi j hj hij
    have hsurj : Set.SurjOn f (Finset.Iio n) (Finset.Iio n) :=
      Finset.surjOn_of_injOn_of_card_le f (by simpa using hmaps) (by simpa using hon) le_rfl
    exact ⟨hmaps, hon, by simpa using hsurj⟩

instance decidablePermutesBelow : Decidable (PermutesBelow f n) :=
  decidable_of_iff _ permutesBelow_iff.symm

namespace PermutesBelow

theorem lt (h : PermutesBelow f n) {i : ℕ} (hi : i < n) : f i < n := h.mapsTo hi

theorem inj (h : PermutesBelow f n) {i j : ℕ} (hi : i < n) (hj : j < n) (hij : f i = f j) :
    i = j :=
  h.injOn hi hj hij

protected theorem id (n : ℕ) : PermutesBelow id n := Set.bijOn_id _

protected theorem congr (h : PermutesBelow f n) (hfg : ∀ i < n, f i = g i) : PermutesBelow g n :=
  Set.BijOn.congr h fun i hi => hfg i hi

/-- A map that is the identity on the segment permutes it. -/
theorem of_eq_self (h : ∀ i < n, f i = i) : PermutesBelow f n :=
  (PermutesBelow.id n).congr fun i hi => (h i hi).symm

/-- A permutation of `[0, m)` continued by the identity permutes every longer segment. -/
theorem extend (h : PermutesBelow f m) (hmn : m ≤ n) (hid : ∀ i, m ≤ i → i < n → f i = i) :
    PermutesBelow f n := by
  rw [permutesBelow_iff]
  have hval : ∀ i < n, (i < m ∧ f i < m) ∨ (m ≤ i ∧ f i = i) := by
    intro i hi
    rcases Nat.lt_or_ge i m with him | him
    · exact Or.inl ⟨him, h.lt him⟩
    · exact Or.inr ⟨him, hid i him hi⟩
  constructor
  · intro i hi
    rcases hval i hi with ⟨_, hlt⟩ | ⟨_, heq⟩
    · omega
    · omega
  · intro i hi j hj hij
    rcases hval i hi with ⟨him, hlt⟩ | ⟨him, heq⟩ <;> rcases hval j hj with ⟨hjm, hlt'⟩ | ⟨hjm, heq'⟩
    · exact h.inj him hjm hij
    · omega
    · omega
    · omega

/-- A permutation of `[0, n)` that keeps a shorter segment inside itself permutes that segment. -/
theorem restrict (h : PermutesBelow f n) (hmn : m ≤ n) (hlt : ∀ i < m, f i < m) :
    PermutesBelow f m :=
  permutesBelow_iff.2 ⟨hlt, fun _ hi _ hj => h.inj (hi.trans_le hmn) (hj.trans_le hmn)⟩

/-- Overwriting a permutation of `[0, n)` with one of `[0, m)` gives a permutation exactly when the old
    one kept `[0, m)` inside itself. -/
theorem overwrite_iff (hg : PermutesBelow g n) (hf : PermutesBelow f m) (hmn : m ≤ n)
    (heq : ∀ i, m ≤ i → i < n → f i = g i) : PermutesBelow f n ↔ ∀ i < m, g i < m := by
  constructor
  · intro h i hi
    by_contra hge
    obtain ⟨j, hj, hji⟩ := h.surjOn (Set.mem_Iio.2 (hg.lt (hi.trans_le hmn)))
    rcases Nat.lt_or_ge j m with hjm | hjm
    · have hlt := hf.lt hjm
      omega
    · have hsame := hg.inj hj (hi.trans_le hmn) ((heq j hjm hj).symm.trans hji)
      omega
  · intro hkeep
    have hgm : PermutesBelow g m := hg.restrict hmn hkeep
    have hout : ∀ j, m ≤ j → j < n → m ≤ g j := by
      intro j hjm hj
      by_contra hlt
      obtain ⟨i, hi, hij⟩ := hgm.surjOn (Set.mem_Iio.2 (not_le.1 hlt))
      have hsame := hg.inj ((Set.mem_Iio.1 hi).trans_le hmn) hj hij
      exact absurd (Set.mem_Iio.1 hi) (by omega)
    have hval : ∀ i < n, (i < m ∧ f i < m) ∨ (m ≤ i ∧ f i = g i ∧ m ≤ g i) := by
      intro i hi
      rcases Nat.lt_or_ge i m with him | him
      · exact Or.inl ⟨him, hf.lt him⟩
      · exact Or.inr ⟨him, heq i him hi, hout i him hi⟩
    refine permutesBelow_iff.2 ⟨fun i hi => ?_, fun i hi j hj hij => ?_⟩
    · have hlt := hg.lt hi
      rcases hval i hi with ⟨-, hfi⟩ | ⟨-, hfi, -⟩ <;> omega
    · rcases hval i hi with ⟨him, hfi⟩ | ⟨-, hfi, hgi⟩ <;>
        rcases hval j hj with ⟨hjm, hfj⟩ | ⟨-, hfj, hgj⟩
      · exact hf.inj him hjm hij
      · omega
      · omega
      · exact hg.inj hi hj (by rw [← hfi, ← hfj, hij])

/-- A permutation below `n`, read as a multiset of values: every value of `[0, n)` once. -/
theorem map_range_iff : (Multiset.range n).map f = Multiset.range n ↔ PermutesBelow f n := by
  constructor
  · intro h
    rw [permutesBelow_iff]
    have hnodup : ((Multiset.range n).map f).Nodup := by
      rw [h]
      exact Multiset.nodup_range n
    constructor
    · intro i hi
      have : f i ∈ (Multiset.range n).map f := Multiset.mem_map_of_mem f (Multiset.mem_range.2 hi)
      rwa [h, Multiset.mem_range] at this
    · intro i hi j hj hij
      exact Multiset.inj_on_of_nodup_map hnodup i (Multiset.mem_range.2 hi) j
        (Multiset.mem_range.2 hj) hij
  · intro h
    have hnodup : ((Multiset.range n).map f).Nodup :=
      (Multiset.nodup_range n).map_on fun i hi j hj hij =>
        h.inj (Multiset.mem_range.1 hi) (Multiset.mem_range.1 hj) hij
    rw [Multiset.Nodup.ext hnodup (Multiset.nodup_range n)]
    intro a
    rw [Multiset.mem_map, Multiset.mem_range]
    constructor
    · rintro ⟨i, hi, rfl⟩
      exact h.lt (Multiset.mem_range.1 hi)
    · intro ha
      obtain ⟨i, hi, rfl⟩ := h.surjOn (Set.mem_Iio.2 ha)
      exact ⟨i, Multiset.mem_range.2 hi, rfl⟩

/-- A list that is a permutation of `[0, n)` gives a map that permutes `[0, n)`. -/
theorem of_perm_range {l : List ℕ} (h : l.Perm (List.range n))
    (hf : ∀ i (hi : i < l.length), f i = l[i]) : PermutesBelow f n := by
  have hlen : l.length = n := by rw [h.length_eq, List.length_range]
  rw [← map_range_iff]
  have hmap : (List.range n).map f = l := by
    apply List.ext_getElem
    · rw [List.length_map, List.length_range, hlen]
    · intro i h₁ h₂
      rw [List.getElem_map, List.getElem_range, hf i h₂]
  change ((List.range n).map f : Multiset ℕ) = (List.range n : Multiset ℕ)
  rw [hmap]
  exact Multiset.coe_eq_coe.2 h

end PermutesBelow
