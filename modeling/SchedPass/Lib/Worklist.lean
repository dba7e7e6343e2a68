import Mathlib.Algebra.BigOperators.Group.Finset.Basic
import Mathlib.Logic.Relation

set_option autoImplicit false

/-! # Bounded depth-first walks

A worklist is popped from its top for at most `n` rounds: a node seen before is dropped, the first
new node that is `found` ends the walk, and any other new node puts its successors on top. What a walk
finds is `found` (`walk_found`) and has every property of the start that the successors keep
(`walk_induction`); two graphs that agree on such a property walk alike (`walk_congr`), and so does the
image of a graph under a map that identifies leaves only (`walk_map`).

The rounds are the only thing that limits a walk: it finds a node if the walk without a bound stops in
time (`walk_eq_some_iff`), and that one stops if and only if a node that is `found` can be reached
(`exists_walkStops_iff`), after at most one round for each edge (`walkStops_of_reachable`). -/

universe u

variable {α : Type u} [DecidableEq α]

/-- Pop for `n` rounds from the worklist, whose top is the head. -/
def walk (next : α → List α) (found : α → Bool) : ℕ → List α → List α → Option α
  | 0, _, _ => none
  | _ + 1, [], _ => none
  | n + 1, x :: work, seen =>
      if x ∈ seen then walk next found n work seen
      else if found x then some x
      else walk next found n ((next x).reverse ++ work) (x :: seen)

variable {next next' : α → List α} {found found' : α → Bool} {P : α → Prop} {n : ℕ}
  {work seen : List α}

omit [DecidableEq α] in
theorem forall_mem_push {x : α} (hnext : ∀ x, P x → ∀ y ∈ next x, P y)
    (hwork : ∀ y ∈ x :: work, P y) : ∀ y ∈ (next x).reverse ++ work, P y := by
  intro y hy
  rcases List.mem_append.1 hy with hy | hy
  · exact hnext x (hwork x (List.mem_cons_self ..)) y (List.mem_reverse.1 hy)
  · exact hwork y (List.mem_cons_of_mem x hy)

/-- **What a walk finds has every property of its start that the successors keep.** -/
theorem walk_induction (hnext : ∀ x, P x → ∀ y ∈ next x, P y) {x : α}
    (hwork : ∀ y ∈ work, P y) (h : walk next found n work seen = some x) : P x := by
  induction n generalizing work seen with
  | zero => cases h
  | succ n ih =>
      rcases work with - | ⟨y, work⟩
      · cases h
      · rw [walk] at h
        split_ifs at h with hseen hfound
        · exact ih (fun z hz => hwork z (List.mem_cons_of_mem y hz)) h
        · rw [← Option.some.inj h]
          exact hwork y (List.mem_cons_self ..)
        · exact ih (forall_mem_push hnext hwork) h

theorem walk_found {x : α} (h : walk next found n work seen = some x) : found x = true := by
  induction n generalizing work seen with
  | zero => cases h
  | succ n ih =>
      rcases work with - | ⟨y, work⟩
      · cases h
      · rw [walk] at h
        split_ifs at h with hseen hfound
        · exact ih h
        · rwa [← Option.some.inj h]
        · exact ih h

theorem walk_congr (hnext : ∀ x, P x → ∀ y ∈ next x, P y)
    (hsame : ∀ x, P x → next' x = next x ∧ found' x = found x) (hwork : ∀ y ∈ work, P y) :
    walk next' found' n work seen = walk next found n work seen := by
  induction n generalizing work seen with
  | zero => rfl
  | succ n ih =>
      rcases work with - | ⟨y, work⟩
      · rfl
      · obtain ⟨hn, hf⟩ := hsame y (hwork y (List.mem_cons_self ..))
        rw [walk, walk, hn, hf, ih fun z hz => hwork z (List.mem_cons_of_mem y hz),
          ih (forall_mem_push hnext hwork)]

/-! ## Walks of a mapped graph -/

/-- Without successors, and not `found`. -/
def IsLeaf (next : α → List α) (found : α → Bool) (x : α) : Prop := next x = [] ∧ found x = false

omit [DecidableEq α] in
theorem mem_cons_map_iff {β : Type u} {f : α → β} (hinj : ∀ x y, f x = f y →
    x = y ∨ IsLeaf next found x ∧ IsLeaf next found y) {seen' : List β} {x : α}
    (hseen : ∀ y, ¬ IsLeaf next found y → (f y ∈ seen' ↔ y ∈ seen)) (y : α)
    (hy : ¬ IsLeaf next found y) : f y ∈ f x :: seen' ↔ y ∈ x :: seen := by
  rw [List.mem_cons, List.mem_cons, hseen y hy]
  refine or_congr_left ⟨fun h => ?_, fun h => h ▸ rfl⟩
  exact (hinj y x h).resolve_right fun hleaf => hy hleaf.1

/-- **A map that keeps successors and identifies leaves only takes a walk to a walk.** -/
theorem walk_map {β : Type u} [DecidableEq β] {f : α → β} {next' : β → List β} {found' : β → Bool}
    (hnext : ∀ x, next' (f x) = (next x).map f) (hfound : ∀ x, found' (f x) = found x)
    (hinj : ∀ x y, f x = f y → x = y ∨ IsLeaf next found x ∧ IsLeaf next found y) {seen' : List β}
    (hseen : ∀ y, ¬ IsLeaf next found y → (f y ∈ seen' ↔ y ∈ seen)) :
    walk next' found' n (work.map f) seen' = (walk next found n work seen).map f := by
  induction n generalizing work seen seen' with
  | zero => rfl
  | succ n ih =>
      rcases work with - | ⟨x, work⟩
      · rfl
      · rw [List.map_cons, walk, walk, hnext, hfound]
        by_cases hleaf : IsLeaf next found x
        · -- a leaf costs its round, seen or not
          have hdrop : ∀ y, ¬ IsLeaf next found y → (f y ∈ f x :: seen' ↔ y ∈ seen) := by
            intro y hy
            rw [mem_cons_map_iff hinj hseen y hy, List.mem_cons, or_iff_right]
            rintro rfl
            exact hy hleaf
          have hkeep : ∀ y, ¬ IsLeaf next found y → (f y ∈ seen' ↔ y ∈ x :: seen) := by
            intro y hy
            rw [hseen y hy, List.mem_cons, or_iff_right]
            rintro rfl
            exact hy hleaf
          simp only [hleaf.1, hleaf.2, List.map_nil, List.reverse_nil, List.nil_append,
            Bool.false_eq_true, if_false]
          split_ifs
          · exact ih hseen
          · exact ih hkeep
          · exact ih hdrop
          · exact ih (mem_cons_map_iff hinj hseen)
        · simp only [hseen x hleaf]
          split_ifs
          · exact ih hseen
          · rfl
          · rw [← List.map_reverse, ← List.map_append]
            exact ih (mem_cons_map_iff hinj hseen)

/-! ## Walks without a bound -/

/-- Without a bound, the walk stops at `x` in its `k`-th round. -/
inductive WalkStops (next : α → List α) (found : α → Bool) (x : α) : ℕ → List α → List α → Prop
  | found {work seen : List α} (hseen : x ∉ seen) (hx : found x = true) :
      WalkStops next found x 1 (x :: work) seen
  | seen {y : α} {work seen : List α} {k : ℕ} (hseen : y ∈ seen)
      (h : WalkStops next found x k work seen) : WalkStops next found x (k + 1) (y :: work) seen
  | push {y : α} {work seen : List α} {k : ℕ} (hseen : y ∉ seen) (hy : found y = false)
      (h : WalkStops next found x k ((next y).reverse ++ work) (y :: seen)) :
      WalkStops next found x (k + 1) (y :: work) seen

theorem walkStops_of_walk {x : α} (h : walk next found n work seen = some x) :
    ∃ k ≤ n, WalkStops next found x k work seen := by
  induction n generalizing work seen with
  | zero => cases h
  | succ n ih =>
      rcases work with - | ⟨y, work⟩
      · cases h
      · rw [walk] at h
        split_ifs at h with hseen hfound
        · obtain ⟨k, hk, hstops⟩ := ih h
          exact ⟨k + 1, Nat.succ_le_succ hk, .seen hseen hstops⟩
        · obtain rfl := Option.some.inj h
          exact ⟨1, Nat.succ_le_succ (Nat.zero_le n), .found hseen hfound⟩
        · obtain ⟨k, hk, hstops⟩ := ih h
          exact ⟨k + 1, Nat.succ_le_succ hk, .push hseen (Bool.eq_false_iff.2 hfound) hstops⟩

theorem WalkStops.walk_eq {x : α} {k : ℕ} (h : WalkStops next found x k work seen) (hk : k ≤ n) :
    walk next found n work seen = some x := by
  induction h generalizing n with
  | found hseen hx =>
      obtain ⟨n, rfl⟩ := Nat.exists_eq_add_of_le' hk
      rw [walk, if_neg hseen, if_pos hx]
  | seen hseen _ ih =>
      obtain ⟨n, rfl⟩ := Nat.exists_eq_add_of_le' (Nat.le_of_add_left_le hk)
      rw [walk, if_pos hseen]
      exact ih (Nat.le_of_succ_le_succ hk)
  | push hseen hy _ ih =>
      obtain ⟨n, rfl⟩ := Nat.exists_eq_add_of_le' (Nat.le_of_add_left_le hk)
      rw [walk, if_neg hseen, if_neg (Bool.eq_false_iff.1 hy)]
      exact ih (Nat.le_of_succ_le_succ hk)

/-- **A walk finds what the walk without a bound stops at in time.** -/
theorem walk_eq_some_iff {x : α} :
    walk next found n work seen = some x ↔ ∃ k ≤ n, WalkStops next found x k work seen :=
  ⟨walkStops_of_walk, fun ⟨_, hk, h⟩ => h.walk_eq hk⟩

/-- A walk that has found nothing so far has the successors of what it has seen ahead of it. -/
def Pending (next : α → List α) (found : α → Bool) (work seen : List α) : Prop :=
  ∀ x ∈ seen, found x = false ∧ ∀ y ∈ next x, y ∈ seen ∨ y ∈ work

omit [DecidableEq α] in
/-- With nothing ahead, everything that can be reached has been seen. -/
theorem Pending.not_found {x w : α} (h : Pending next found [] seen) (hw : w ∈ seen)
    (hreach : Relation.ReflTransGen (fun x y => y ∈ next x) w x) : found x = false := by
  refine (h x ?_).1
  induction hreach with
  | refl => exact hw
  | tail _ hy ih => exact ((h _ ih).2 _ hy).resolve_right List.not_mem_nil

omit [DecidableEq α] in
theorem ahead_drop {x y : α} (hx : x ∈ seen) (h : y ∈ seen ∨ y ∈ x :: work) :
    y ∈ seen ∨ y ∈ work := by
  rcases h with h | h
  · exact Or.inl h
  · rcases List.mem_cons.1 h with rfl | h
    · exact Or.inl hx
    · exact Or.inr h

omit [DecidableEq α] in
theorem ahead_push {x y : α} (new : List α) (h : y ∈ seen ∨ y ∈ x :: work) :
    y ∈ x :: seen ∨ y ∈ new ++ work := by
  rcases h with h | h
  · exact Or.inl (List.mem_cons_of_mem x h)
  · rcases List.mem_cons.1 h with rfl | h
    · exact Or.inl (List.mem_cons_self ..)
    · exact Or.inr (List.mem_append_right new h)

omit [DecidableEq α] in
theorem Pending.drop {x : α} (h : Pending next found (x :: work) seen) (hx : x ∈ seen) :
    Pending next found work seen :=
  fun z hz => ⟨(h z hz).1, fun y hy => ahead_drop hx ((h z hz).2 y hy)⟩

omit [DecidableEq α] in
theorem Pending.push {x : α} (h : Pending next found (x :: work) seen) (hx : found x = false) :
    Pending next found ((next x).reverse ++ work) (x :: seen) := by
  intro z hz
  rcases List.mem_cons.1 hz with rfl | hz
  · exact ⟨hx, fun y hy => Or.inr (List.mem_append_left _ (List.mem_reverse.2 hy))⟩
  · exact ⟨(h z hz).1, fun y hy => ahead_push _ ((h z hz).2 y hy)⟩

/-- The rounds that a walk within `S` has ahead of it at most. -/
def roundsLeft (next : α → List α) (S : Finset α) (work seen : List α) : ℕ :=
  work.length + ∑ x ∈ S.filter (· ∉ seen), (next x).length

theorem roundsLeft_push {S : Finset α} {x : α} (hx : x ∈ S) (hseen : x ∉ seen) :
    roundsLeft next S ((next x).reverse ++ work) (x :: seen) + 1
      = roundsLeft next S (x :: work) seen := by
  have hsplit : S.filter (· ∉ seen) = insert x (S.filter (· ∉ x :: seen)) := by
    ext y
    simp only [Finset.mem_filter, Finset.mem_insert, List.mem_cons, not_or]
    constructor
    · rintro ⟨hy, hnot⟩
      by_cases hyx : y = x
      · exact Or.inl hyx
      · exact Or.inr ⟨hy, hyx, hnot⟩
    · rintro (rfl | ⟨hy, -, hnot⟩)
      · exact ⟨hx, hseen⟩
      · exact ⟨hy, hnot⟩
  have hnot : x ∉ S.filter (· ∉ x :: seen) := by simp
  rw [roundsLeft, roundsLeft, hsplit, Finset.sum_insert hnot, List.length_append,
    List.length_reverse, List.length_cons]
  omega

/-- **A node that can be reached is found within a round for each edge.** -/
theorem walk_isSome_of_reachable {S : Finset α} (hS : ∀ x ∈ S, ∀ y ∈ next x, y ∈ S)
    (hwork : ∀ x ∈ work, x ∈ S) (hpending : Pending next found work seen)
    (hn : roundsLeft next S work seen ≤ n) {x w : α} (hx : found x = true)
    (hw : w ∈ seen ∨ w ∈ work) (hreach : Relation.ReflTransGen (fun x y => y ∈ next x) w x) :
    (walk next found n work seen).isSome := by
  have hdone : ∀ {seen : List α}, Pending next found [] seen → w ∈ seen → False := by
    intro seen hpending hw
    have := hpending.not_found hw hreach
    rw [hx] at this
    cases this
  induction n generalizing work seen with
  | zero =>
      obtain rfl := List.length_eq_zero_iff.1 (Nat.eq_zero_of_add_eq_zero_right (Nat.le_zero.1 hn))
      exact (hdone hpending (hw.resolve_right List.not_mem_nil)).elim
  | succ n ih =>
      rcases work with - | ⟨y, work⟩
      · exact (hdone hpending (hw.resolve_right List.not_mem_nil)).elim
      · rw [walk]
        have hwork' := fun z hz => hwork z (List.mem_cons_of_mem y hz)
        split_ifs with hseen hfound
        · refine ih hwork' (hpending.drop hseen) ?_ (ahead_drop hseen hw)
          rw [roundsLeft, List.length_cons] at hn
          rw [roundsLeft]
          omega
        · rfl
        · have hnew : y ∈ S := hwork y (List.mem_cons_self ..)
          rw [← roundsLeft_push hnew hseen] at hn
          exact ih (forall_mem_push hS hwork) (hpending.push (Bool.eq_false_iff.2 hfound))
            (Nat.le_of_succ_le_succ hn) (ahead_push _ hw)

variable {v : α}

theorem WalkStops.found_eq_true {x : α} {k : ℕ} (h : WalkStops next found x k work seen) :
    found x = true :=
  walk_found (h.walk_eq le_rfl)

theorem WalkStops.reachable {x : α} {k : ℕ} (h : WalkStops next found x k [v] []) :
    Relation.ReflTransGen (fun x y => y ∈ next x) v x := by
  refine walk_induction (fun x hx y hy => hx.tail hy) ?_ (h.walk_eq le_rfl)
  intro y hy
  rw [List.mem_singleton.1 hy]

theorem walkStops_of_reachable {S : Finset α} (hS : ∀ x ∈ S, ∀ y ∈ next x, y ∈ S) (hv : v ∈ S)
    {x : α} (hx : found x = true) (hreach : Relation.ReflTransGen (fun x y => y ∈ next x) v x) :
    ∃ k ≤ 1 + ∑ x ∈ S, (next x).length, ∃ y, WalkStops next found y k [v] [] := by
  have hrounds : roundsLeft next S [v] [] ≤ 1 + ∑ x ∈ S, (next x).length := by
    simp [roundsLeft]
  have hwork : ∀ y ∈ [v], y ∈ S := by
    intro y hy
    rwa [List.mem_singleton.1 hy]
  obtain ⟨y, hy⟩ := Option.isSome_iff_exists.1 (walk_isSome_of_reachable hS hwork
    (fun _ h => absurd h List.not_mem_nil) hrounds hx (Or.inr (List.mem_singleton_self v)) hreach)
  obtain ⟨k, hk, hstops⟩ := walkStops_of_walk hy
  exact ⟨k, hk, y, hstops⟩

/-- **The walk without a bound stops if and only if it can.** -/
theorem exists_walkStops_iff {S : Finset α} (hS : ∀ x ∈ S, ∀ y ∈ next x, y ∈ S) (hv : v ∈ S) :
    (∃ k x, WalkStops next found x k [v] [])
      ↔ ∃ x, found x = true ∧ Relation.ReflTransGen (fun x y => y ∈ next x) v x := by
  constructor
  · rintro ⟨k, x, h⟩
    exact ⟨x, h.found_eq_true, h.reachable⟩
  · rintro ⟨x, hx, hreach⟩
    obtain ⟨k, -, y, h⟩ := walkStops_of_reachable hS hv hx hreach
    exact ⟨k, y, h⟩
