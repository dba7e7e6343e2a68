import Mathlib.Data.List.Basic

set_option autoImplicit false

/-! # Loops that break

`foldUntil` is a fold that stops as soon as its state satisfies `stop`. A nest of such loops is one
loop over the flattened list (`foldUntil_flatMap`), and a loop that collects until a cap is reached
collects a prefix of what it would collect without the cap (`foldUntil_collect`). Two such loops collect
the same if and only if they take the same from every item they get to (`take_filterMap_eq_iff`). -/

universe u v w

variable {σ : Type u} {α : Type v} {β : Type w} {stop : σ → Bool} {step : σ → α → σ}

/-- `for (a : l) { if (stop) break; s = step(s, a); }` -/
def foldUntil (stop : σ → Bool) (step : σ → α → σ) : List α → σ → σ
  | [], s => s
  | a :: l, s => if stop s then s else foldUntil stop step l (step s a)

theorem foldUntil_of_stop {s : σ} (h : stop s = true) (l : List α) : foldUntil stop step l s = s := by
  cases l with
  | nil => rfl
  | cons a l => rw [foldUntil, if_pos h]

theorem foldUntil_append (l l' : List α) (s : σ) :
    foldUntil stop step (l ++ l') s = foldUntil stop step l' (foldUntil stop step l s) := by
  induction l generalizing s with
  | nil => rfl
  | cons a l ih =>
      rw [List.cons_append, foldUntil, foldUntil]
      by_cases h : stop s = true
      · rw [if_pos h, if_pos h, foldUntil_of_stop h]
      · rw [if_neg h, if_neg h, ih]

theorem foldUntil_map (f : β → α) (l : List β) (s : σ) :
    foldUntil stop step (l.map f) s = foldUntil stop (fun s b => step s (f b)) l s := by
  induction l generalizing s with
  | nil => rfl
  | cons b l ih => rw [List.map_cons, foldUntil, foldUntil, ih]

/-- **A nest of loops that break on one condition is one loop.** -/
theorem foldUntil_flatMap (f : β → List α) (l : List β) (s : σ) :
    foldUntil stop step (l.flatMap f) s
      = foldUntil stop (fun s b => foldUntil stop step (f b) s) l s := by
  induction l generalizing s with
  | nil => rfl
  | cons b l ih =>
      rw [List.flatMap_cons, foldUntil_append, ih, foldUntil]
      by_cases h : stop s = true
      · rw [if_pos h, foldUntil_of_stop h, foldUntil_of_stop h]
      · rw [if_neg h]

/-- A view of the state that has a step and a break of its own. -/
theorem map_foldUntil {τ : Type w} {stop' : τ → Bool} {step' : τ → α → τ} (f : σ → τ)
    (hstop : ∀ s, stop s = stop' (f s)) (hstep : ∀ s a, f (step s a) = step' (f s) a) (l : List α)
    (s : σ) : f (foldUntil stop step l s) = foldUntil stop' step' l (f s) := by
  induction l generalizing s with
  | nil => rfl
  | cons a l ih =>
      rw [foldUntil, foldUntil, hstop, apply_ite f, ih, hstep]

/-- Where nothing stops the loop, it is a fold. -/
theorem foldUntil_eq_foldl {I : σ → Prop} (hstop : ∀ s, I s → stop s = false) {l : List α}
    (hstep : ∀ s, ∀ a ∈ l, I s → I (step s a)) {s : σ} (hs : I s) :
    foldUntil stop step l s = l.foldl step s := by
  induction l generalizing s with
  | nil => rfl
  | cons a l ih =>
      rw [foldUntil, hstop s hs, if_neg Bool.false_ne_true, List.foldl_cons]
      exact ih (fun s b hb => hstep s b (List.mem_cons_of_mem a hb))
        (hstep s a (List.mem_cons_self ..) hs)

/-- **A loop that collects up to `cap` items collects the first `cap` of them all.** -/
theorem foldUntil_collect (g : α → Option β) {cap : ℕ} (l : List α) {acc : List β}
    (hacc : acc.length ≤ cap) :
    foldUntil (fun acc => decide (cap ≤ acc.length)) (fun acc a => acc ++ (g a).toList) l acc
      = (acc ++ l.filterMap g).take cap := by
  induction l generalizing acc with
  | nil => rw [foldUntil, List.filterMap_nil, List.append_nil, List.take_of_length_le hacc]
  | cons a l ih =>
      rw [foldUntil]
      by_cases hcap : cap ≤ acc.length
      · rw [if_pos (decide_eq_true hcap), List.take_append_of_le_length hcap,
          List.take_of_length_le hacc]
      · rw [if_neg (by simpa using hcap)]
        cases hg : g a with
        | none =>
            rw [Option.toList_none, List.append_nil, List.filterMap_cons_none hg]
            exact ih hacc
        | some b =>
            have hlen : (acc ++ [b]).length ≤ cap := by
              rw [List.length_append, List.length_singleton]
              omega
            rw [Option.toList_some, List.filterMap_cons_some hg, ih hlen, List.append_assoc]
            rfl

/-- The items that a loop gets to which collects up to `cap` of them. -/
def collectVisits (f : α → Option β) : ℕ → List α → List α
  | 0, _ => []
  | _ + 1, [] => []
  | cap + 1, a :: l =>
      a :: match f a with
        | none => collectVisits f (cap + 1) l
        | some _ => collectVisits f cap l

/-- What is taken from an item has the item's key. -/
def Keyed {κ : Type*} (k : α → κ) (key : β → κ) (f : α → Option β) : Prop :=
  ∀ a b, f a = some b → key b = k a

theorem Keyed.not_mem_filterMap {κ : Type*} {k : α → κ} {key : β → κ} {f g : α → Option β}
    (hf : Keyed k key f) (hg : Keyed k key g) {a : α} {b : β} {l : List α} (hb : f a = some b)
    (ha : k a ∉ l.map k) : b ∉ l.filterMap g := by
  intro hmem
  obtain ⟨c, hc, hcb⟩ := List.mem_filterMap.1 hmem
  exact ha (List.mem_map.2 ⟨c, hc, (hg c b hcb).symm.trans (hf a b hb)⟩)

/-- **Two loops with a cap collect the same if and only if they take the same from every item that the
    first gets to**, where what is taken tells the items apart. -/
theorem take_filterMap_eq_iff {κ : Type*} {k : α → κ} {key : β → κ} {f g : α → Option β}
    (hf : Keyed k key f) (hg : Keyed k key g) (cap : ℕ) {l : List α} (hl : (l.map k).Nodup) :
    (l.filterMap f).take cap = (l.filterMap g).take cap ↔ ∀ a ∈ collectVisits f cap l, f a = g a := by
  induction l generalizing cap with
  | nil => cases cap <;> simp [collectVisits]
  | cons a l ih =>
      obtain ⟨ha, hl⟩ := List.nodup_cons.1 hl
      cases cap with
      | zero => simp [collectVisits]
      | succ cap =>
          rw [collectVisits, List.forall_mem_cons]
          cases hfa : f a with
          | none =>
              rw [List.filterMap_cons_none hfa]
              cases hga : g a with
              | none =>
                  rw [List.filterMap_cons_none hga, ih (cap + 1) hl]
                  exact (and_iff_right rfl).symm
              | some c =>
                  rw [List.filterMap_cons_some hga, List.take_succ_cons]
                  refine iff_of_false (fun h => ?_) fun h => nomatch h.1
                  refine hg.not_mem_filterMap hf hga ha (List.mem_of_mem_take (i := cap + 1) ?_)
                  exact h ▸ List.mem_cons_self ..
          | some b =>
              rw [List.filterMap_cons_some hfa, List.take_succ_cons]
              cases hga : g a with
              | none =>
                  rw [List.filterMap_cons_none hga]
                  refine iff_of_false (fun h => ?_) fun h => nomatch h.1
                  refine hf.not_mem_filterMap hg hfa ha (List.mem_of_mem_take (i := cap + 1) ?_)
                  exact h ▸ List.mem_cons_self ..
              | some c =>
                  rw [List.filterMap_cons_some hga, List.take_succ_cons, List.cons.injEq, ih cap hl,
                    Option.some.injEq]
