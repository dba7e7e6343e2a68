import Mathlib.Algebra.BigOperators.Group.List.Basic
import Mathlib.Algebra.Order.Ring.Defs
import Mathlib.Algebra.Ring.Defs
import Mathlib.Order.WithBot

set_option autoImplicit false

/-! # Loops with masked items

A loop folds a step over a list of items. Where the step ignores a masked item, masking the items
from position `n` on is the same as stopping after `n` items (`foldl_mask_eq_take`), and so in every
nest of such loops (`foldl_nest_eq_take`).

Two loops have such a step, in exact arithmetic: the online softmax, which keeps a running maximum, a
denominator and a weighted sum, when the score is `-∞` (`softmaxStep_bot`); and a linear contraction
when the value is 0. -/

universe u v

/-! ## Masked folds -/

section Fold

variable {σ : Type u} {α : Type v} {step : σ → α → σ} {mask : α → α} {I : σ → Prop}

/-- One execution of a loop whose item at position `t` is masked unless `keep t`. -/
def maskedLoop (step : σ → α → σ) (mask : α → α) (keep : ℕ → Bool) (s : σ) (items : List α) : σ :=
  items.zipIdx.foldl (fun s p => step s (if keep p.2 then p.1 else mask p.1)) s

theorem foldl_invariant (hstep : ∀ s a, I s → I (step s a)) (items : List α) {s : σ} (hs : I s) :
    I (items.foldl step s) := by
  induction items generalizing s with
  | nil => exact hs
  | cons a items ih => exact ih (hstep s a hs)

theorem foldl_mask_eq_take_aux (hstep : ∀ s a, I s → I (step s a))
    (hmask : ∀ s a, I s → step s (mask a) = s) {n : ℕ} (items : List α) (k : ℕ) {s : σ} (hs : I s) :
    (items.zipIdx k).foldl (fun s p => step s (if p.2 < n then p.1 else mask p.1)) s
      = (items.take (n - k)).foldl step s := by
  induction items generalizing k s with
  | nil => simp
  | cons a items ih =>
      rw [List.zipIdx_cons, List.foldl_cons]
      by_cases hk : k < n
      · have hsub : n - k = n - (k + 1) + 1 := by omega
        rw [if_pos hk, ih (k + 1) (hstep s a hs), hsub, List.take_succ_cons, List.foldl_cons]
      · have hsub : n - k = 0 := by omega
        have hsub' : n - (k + 1) = 0 := by omega
        rw [if_neg hk, hmask s a hs, ih (k + 1) hs, hsub, hsub']
        rfl

/-- **A step that ignores masked items makes masking from `n` on the same as stopping after `n`.** -/
theorem foldl_mask_eq_take (hstep : ∀ s a, I s → I (step s a))
    (hmask : ∀ s a, I s → step s (mask a) = s) {keep : ℕ → Bool} {n : ℕ} {items : List α}
    (hkeep : ∀ t < items.length, keep t = decide (t < n)) {s : σ} (hs : I s) :
    maskedLoop step mask keep s items = (items.take n).foldl step s := by
  rw [← Nat.sub_zero n, ← foldl_mask_eq_take_aux hstep hmask items 0 hs, maskedLoop]
  refine List.foldl_ext _ _ _ fun s p hp => ?_
  obtain ⟨-, hlt, -⟩ := List.mem_zipIdx hp
  rw [Nat.zero_add] at hlt
  simp only [hkeep p.2 hlt, decide_eq_true_eq]

/-- The same in every execution of the loop within a nest. -/
theorem foldl_nest_eq_take (hstep : ∀ s a, I s → I (step s a))
    (hmask : ∀ s a, I s → step s (mask a) = s) {keep : ℕ → Bool} {n : ℕ} {nest : List (List α)}
    (hkeep : ∀ items ∈ nest, ∀ t < items.length, keep t = decide (t < n)) {s : σ} (hs : I s) :
    nest.foldl (maskedLoop step mask keep) s
      = nest.foldl (fun s items => (items.take n).foldl step s) s := by
  induction nest generalizing s with
  | nil => rfl
  | cons items nest ih =>
      have hfirst := foldl_mask_eq_take hstep hmask (hkeep items (List.mem_cons_self ..)) hs
      rw [List.foldl_cons, List.foldl_cons, hfirst]
      exact ih (fun l hl => hkeep l (List.mem_cons_of_mem items hl))
        (foldl_invariant hstep (items.take n) hs)

end Fold

/-! ## Online softmax -/

section Softmax

variable {𝕜 : Type u} [Ring 𝕜] [LinearOrder 𝕜]

/-- `a - b` where `a` may be `-∞`, which it then stays. -/
def subBot (a b : WithBot 𝕜) : WithBot 𝕜 :=
  match a, b with
  | some a, some b => some (a - b)
  | _, _ => ⊥

/-- Running maximum, denominator and weighted sum. -/
@[ext] structure SoftmaxState (𝕜 : Type u) where
  m : WithBot 𝕜
  l : 𝕜
  acc : 𝕜

/-- What is used of an exponential. -/
structure ExpLaws (exp : WithBot 𝕜 → 𝕜) : Prop where
  bot : exp ⊥ = 0
  zero : exp ((0 : 𝕜) : WithBot 𝕜) = 1

/-- One token with score `s` and value `v`. -/
def softmaxStep (exp : WithBot 𝕜 → 𝕜) (st : SoftmaxState 𝕜) (token : WithBot 𝕜 × 𝕜) :
    SoftmaxState 𝕜 :=
  let mn := max st.m token.1
  let c := exp (subBot st.m mn)
  let w := exp (subBot token.1 mn)
  { m := mn, l := st.l * c + w, acc := st.acc * c + w * token.2 }

omit [LinearOrder 𝕜] in
theorem subBot_self {a : WithBot 𝕜} (ha : a ≠ ⊥) : subBot a a = ((0 : 𝕜) : WithBot 𝕜) := by
  obtain ⟨x, rfl⟩ := WithBot.ne_bot_iff_exists.1 ha
  exact congrArg WithBot.some (sub_self x)

theorem softmaxStep_finite (exp : WithBot 𝕜 → 𝕜) (st : SoftmaxState 𝕜) (token : WithBot 𝕜 × 𝕜)
    (h : st.m ≠ ⊥) : (softmaxStep exp st token).m ≠ ⊥ := by
  intro hbot
  exact h (le_bot_iff.1 ((le_max_left st.m token.1).trans_eq hbot))

/-- **A token with score `-∞` changes nothing**, whatever its value. -/
theorem softmaxStep_bot {exp : WithBot 𝕜 → 𝕜} (hexp : ExpLaws exp) {st : SoftmaxState 𝕜}
    (h : st.m ≠ ⊥) (v : 𝕜) : softmaxStep exp st (⊥, v) = st := by
  have hmax : max st.m ⊥ = st.m := max_eq_left bot_le
  have hc : exp (subBot st.m st.m) = 1 := by rw [subBot_self h, hexp.zero]
  have hw : exp (subBot ⊥ st.m) = 0 := hexp.bot
  simp only [softmaxStep, hmax, hc, hw, mul_one, add_zero, zero_mul]

/-- The maximum is a number, or nothing has been taken in. -/
def SoftmaxState.Settled (st : SoftmaxState 𝕜) : Prop := st.m = ⊥ → st.l = 0 ∧ st.acc = 0

variable {exp : WithBot 𝕜 → 𝕜} {st : SoftmaxState 𝕜}

theorem SoftmaxState.Settled.step (hexp : ExpLaws exp) (h : st.Settled) (token : WithBot 𝕜 × 𝕜) :
    (softmaxStep exp st token).Settled := by
  intro hm
  obtain ⟨hst, htoken⟩ : st.m = ⊥ ∧ token.1 = ⊥ := max_eq_bot.1 hm
  obtain ⟨hl, hacc⟩ := h hst
  have hw : exp (subBot token.1 (max st.m token.1)) = 0 := by
    rw [htoken]
    exact hexp.bot
  constructor
  · simp only [softmaxStep, hl, hw, zero_mul, add_zero]
  · simp only [softmaxStep, hacc, hw, zero_mul, add_zero]

theorem SoftmaxState.Settled.foldl (hexp : ExpLaws exp) (h : st.Settled)
    (tokens : List (WithBot 𝕜 × 𝕜)) : (tokens.foldl (softmaxStep exp) st).Settled :=
  foldl_invariant (I := SoftmaxState.Settled) (fun _ token hst => hst.step hexp token) tokens h

/-- **Tokens with score `-∞` change nothing.** -/
theorem SoftmaxState.Settled.foldl_bot (hexp : ExpLaws exp) (h : st.Settled)
    {tokens : List (WithBot 𝕜 × 𝕜)} (hbot : ∀ t ∈ tokens, t.1 = ⊥) :
    tokens.foldl (softmaxStep exp) st = st := by
  have hstep : ∀ v, softmaxStep exp st (⊥, v) = st := by
    intro v
    by_cases hm : st.m = ⊥
    · obtain ⟨hl, hacc⟩ := h hm
      have hw : exp (subBot ⊥ (max st.m ⊥)) = 0 := hexp.bot
      ext
      · exact max_eq_left bot_le
      · simp only [softmaxStep, hl, hw, zero_mul, add_zero]
      · simp only [softmaxStep, hacc, hw, zero_mul, add_zero]
    · exact softmaxStep_bot hexp hm v
  induction tokens with
  | nil => rfl
  | cons t tokens ih =>
      have ht : t = (⊥, t.2) := Prod.ext (hbot t (List.mem_cons_self ..)) rfl
      rw [List.foldl_cons, ht, hstep]
      exact ih fun t' ht' => hbot t' (List.mem_cons_of_mem t ht')

end Softmax

/-! ## Linear contraction -/

section Linear

variable {𝕜 : Type u} [Ring 𝕜]

/-- One term `v * w`. -/
def contractStep (acc : 𝕜) (term : 𝕜 × 𝕜) : 𝕜 := acc + term.1 * term.2

theorem contractStep_zero (acc w : 𝕜) : contractStep acc (0, w) = acc := by
  rw [contractStep, zero_mul, add_zero]

theorem foldl_contractStep (terms : List (𝕜 × 𝕜)) (acc : 𝕜) :
    terms.foldl contractStep acc = acc + (terms.map fun p => p.1 * p.2).sum := by
  induction terms generalizing acc with
  | nil => simp
  | cons p terms ih => rw [List.foldl_cons, ih, contractStep, List.map_cons, List.sum_cons, add_assoc]

end Linear
