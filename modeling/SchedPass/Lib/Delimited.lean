import Mathlib.Data.List.Basic
import Mathlib.Data.Int.Notation
import Mathlib.Data.Nat.Init
import Mathlib.Logic.Function.Basic

set_option autoImplicit false

/-! # Reading back what was put together

A string built of parts can be taken apart again where each part ends at a character that it cannot
contain (`append_inj_of_break`). Numbers written in a base up to 16, with a sign, and lists of parts
that each follow a delimiter are such strings (`formatInt_injective`, `delimited_injective`). -/

universe u

section Break

variable {α : Type u} {P : α → Prop} {l₁ l₂ r₁ r₂ : List α}

/-- Two splits of a list are the same when both first parts consist of `P` and neither second part
    starts with `P`. -/
theorem append_inj_of_break (h : l₁ ++ r₁ = l₂ ++ r₂) (hl₁ : ∀ a ∈ l₁, P a) (hl₂ : ∀ a ∈ l₂, P a)
    (hr₁ : ∀ a ∈ r₁.head?, ¬ P a) (hr₂ : ∀ a ∈ r₂.head?, ¬ P a) : l₁ = l₂ ∧ r₁ = r₂ := by
  induction l₁ generalizing l₂ with
  | nil =>
      rcases l₂ with _ | ⟨b, l₂⟩
      · exact ⟨rfl, h⟩
      · rw [List.nil_append] at h
        refine absurd (hl₂ b (List.mem_cons_self ..)) (hr₁ b ?_)
        rw [h]
        rfl
  | cons a l₁ ih =>
      rcases l₂ with _ | ⟨b, l₂⟩
      · rw [List.nil_append] at h
        refine absurd (hl₁ a (List.mem_cons_self ..)) (hr₂ a ?_)
        rw [← h]
        rfl
      · obtain ⟨rfl, htail⟩ := List.cons.inj h
        obtain ⟨rfl, rfl⟩ := ih htail (fun c hc => hl₁ c (List.mem_cons_of_mem a hc))
          (fun c hc => hl₂ c (List.mem_cons_of_mem a hc))
        exact ⟨rfl, rfl⟩

end Break

/-! ## Parts behind a delimiter -/

section Delimited

variable {α : Type u} {d : α}

/-- The parts one after the other, each behind the delimiter. -/
def delimited (d : α) (parts : List (List α)) : List α := (parts.map (d :: ·)).flatten

theorem delimited_cons (d : α) (p : List α) (parts : List (List α)) :
    delimited d (p :: parts) = d :: (p ++ delimited d parts) := rfl

theorem mem_delimited {parts : List (List α)} {a : α} (h : a ∈ delimited d parts) :
    a = d ∨ ∃ p ∈ parts, a ∈ p := by
  obtain ⟨q, hq, ha⟩ := List.mem_flatten.1 h
  obtain ⟨p, hp, rfl⟩ := List.mem_map.1 hq
  exact (List.mem_cons.1 ha).imp id fun ha => ⟨p, hp, ha⟩

theorem head_delimited (parts : List (List α)) : ∀ a ∈ (delimited d parts).head?, ¬ a ≠ d := by
  intro a ha
  rcases parts with _ | ⟨p, parts⟩
  · cases ha
  · rw [delimited_cons, List.head?_cons] at ha
    exact not_not.2 (Option.some.inj ha).symm

theorem delimited_injective {ps qs : List (List α)} (hp : ∀ p ∈ ps, ∀ a ∈ p, a ≠ d)
    (hq : ∀ q ∈ qs, ∀ a ∈ q, a ≠ d) (h : delimited d ps = delimited d qs) : ps = qs := by
  induction ps generalizing qs with
  | nil =>
      rcases qs with _ | ⟨q, qs⟩
      · rfl
      · cases h
  | cons p ps ih =>
      rcases qs with _ | ⟨q, qs⟩
      · cases h
      · rw [delimited_cons, delimited_cons] at h
        obtain ⟨rfl, htail⟩ := append_inj_of_break (List.cons.inj h).2 (hp p (List.mem_cons_self ..))
          (hq q (List.mem_cons_self ..)) (head_delimited ps) (head_delimited qs)
        rw [ih (fun r hr => hp r (List.mem_cons_of_mem p hr))
          (fun r hr => hq r (List.mem_cons_of_mem p hr)) htail]

/-- Splitting at the delimiter gives the parts back. -/
theorem splitOn_delimited [BEq α] [LawfulBEq α] {p : List α} {parts : List (List α)} (hp : d ∉ p)
    (hparts : ∀ q ∈ parts, d ∉ q) : (p ++ delimited d parts).splitOn d = p :: parts := by
  induction parts generalizing p with
  | nil => rw [delimited, List.map_nil, List.flatten_nil, List.append_nil, List.splitOn_eq_singleton hp]
  | cons q parts ih =>
      obtain ⟨hq, hparts⟩ := List.forall_mem_cons.1 hparts
      rw [delimited_cons, List.splitOn_append_cons_self_of_not_mem hp, ih hq hparts]

theorem infix_intercalate {sep w : List α} {parts : List (List α)} (h : w ∈ parts) :
    w <:+: sep.intercalate parts := by
  induction parts with
  | nil => cases h
  | cons p parts ih =>
      cases parts with
      | nil => simp [List.mem_singleton.1 h]
      | cons q parts =>
          rw [List.intercalate_cons_cons]
          rcases List.mem_cons.1 h with rfl | h
          · exact ⟨[], sep ++ sep.intercalate (q :: parts), by simp⟩
          · exact (ih h).trans (List.suffix_append _ _).isInfix

/-- A part between delimiters is a piece of the text. -/
theorem infix_of_mem_splitOn [BEq α] [LawfulBEq α] {s w : List α} (h : w ∈ s.splitOn d) : w <:+: s := by
  have hs := @infix_intercalate _ [d] _ _ h
  rwa [List.intercalate_splitOn] at hs

end Delimited

/-! ## Numbers -/

theorem digitChar_injOn {m n : ℕ} (hm : m < 16) (hn : n < 16) (h : m.digitChar = n.digitChar) :
    m = n := by
  have key : ∀ i < 16, ∀ j < 16, Nat.digitChar i = Nat.digitChar j → i = j := by decide
  exact key m hm n hn h

/-- The characters of a number in base `b`. -/
theorem mem_toDigits {b n : ℕ} (hb : 1 < b) {c : Char} (hc : c ∈ Nat.toDigits b n) :
    ∃ d < b, c = d.digitChar := by
  induction n using Nat.strongRecOn with
  | ind n ih =>
      rw [Nat.toDigits_eq_if hb] at hc
      split at hc
      · next hlt => exact ⟨n, hlt, List.mem_singleton.1 hc⟩
      · next hge =>
          rcases List.mem_append.1 hc with hc | hc
          · exact ih (n / b) (Nat.div_lt_self (by omega) hb) hc
          · exact ⟨n % b, Nat.mod_lt n (by omega), List.mem_singleton.1 hc⟩

theorem toDigits_injective {b : ℕ} (hb : 1 < b) (hb16 : b ≤ 16) :
    Function.Injective (Nat.toDigits b) := by
  intro m
  induction m using Nat.strongRecOn with
  | ind m ih =>
      intro n h
      have hone : ∀ i j, i < b → ¬ j < b → Nat.toDigits b i ≠ Nat.toDigits b j := by
        intro i j hi hj he
        have hlen := congrArg List.length he
        have hpos := @Nat.length_toDigits_pos b (j / b)
        rw [Nat.toDigits_of_lt_base hi, Nat.toDigits_of_base_le hb (Nat.not_lt.1 hj), List.length_append,
          List.length_singleton, List.length_singleton] at hlen
        omega
      by_cases hm : m < b <;> by_cases hn : n < b
      · rw [Nat.toDigits_of_lt_base hm, Nat.toDigits_of_lt_base hn] at h
        exact digitChar_injOn (by omega) (by omega) (List.singleton_inj.1 h)
      · exact absurd h (hone m n hm hn)
      · exact absurd h.symm (hone n m hn hm)
      · rw [Nat.toDigits_of_base_le hb (Nat.not_lt.1 hm), Nat.toDigits_of_base_le hb (Nat.not_lt.1 hn)] at h
        obtain ⟨hdiv, hmod⟩ := List.append_inj' h rfl
        have hq := ih (m / b) (Nat.div_lt_self (by omega) hb) hdiv
        have hr := digitChar_injOn (Nat.lt_of_lt_of_le (Nat.mod_lt m (by omega)) hb16)
          (Nat.lt_of_lt_of_le (Nat.mod_lt n (by omega)) hb16) (List.singleton_inj.1 hmod)
        rw [← Nat.div_add_mod m b, ← Nat.div_add_mod n b, hq, hr]

/-- An integer in base `b`, with a minus sign when it is negative. -/
def formatInt (b : ℕ) : ℤ → List Char
  | .ofNat n => Nat.toDigits b n
  | .negSucc n => '-' :: Nat.toDigits b (n + 1)

theorem mem_formatInt {b : ℕ} (hb : 1 < b) {n : ℤ} {c : Char} (hc : c ∈ formatInt b n) :
    (n < 0 ∧ c = '-') ∨ ∃ d < b, c = d.digitChar := by
  cases n with
  | ofNat n => exact .inr (mem_toDigits hb hc)
  | negSucc n =>
      rcases List.mem_cons.1 hc with rfl | hc
      · exact .inl ⟨Int.negSucc_lt_zero n, rfl⟩
      · exact .inr (mem_toDigits hb hc)

/-- A number does not start with a minus sign. -/
theorem minus_notMem_toDigits {b n : ℕ} (hb : 1 < b) (hb16 : b ≤ 16) : '-' ∉ Nat.toDigits b n := by
  intro h
  obtain ⟨d, hd, he⟩ := mem_toDigits hb h
  have key : ∀ i < 16, '-' ≠ Nat.digitChar i := by decide
  exact key d (by omega) he

/-- Two integers with text behind them: where neither text starts with a digit, both are the same. -/
theorem formatInt_append_inj {b : ℕ} (hb : 1 < b) (hb16 : b ≤ 16) {m n : ℤ} {r₁ r₂ : List Char}
    (h : formatInt b m ++ r₁ = formatInt b n ++ r₂)
    (hr₁ : ∀ c ∈ r₁.head?, ¬ ∃ d < b, c = Nat.digitChar d)
    (hr₂ : ∀ c ∈ r₂.head?, ¬ ∃ d < b, c = Nat.digitChar d) : m = n ∧ r₁ = r₂ := by
  have hdigits : ∀ i j, Nat.toDigits b i ++ r₁ = Nat.toDigits b j ++ r₂ → i = j ∧ r₁ = r₂ := by
    intro i j he
    obtain ⟨hij, hr⟩ := append_inj_of_break he (fun _ => mem_toDigits hb) (fun _ => mem_toDigits hb)
      hr₁ hr₂
    exact ⟨toDigits_injective hb hb16 hij, hr⟩
  have hsign : ∀ i (s t u : List Char), Nat.toDigits b i ++ s ≠ '-' :: t ++ u := by
    intro i s t u he
    rcases hd : Nat.toDigits b i with _ | ⟨c, cs⟩
    · exact absurd hd Nat.toDigits_ne_nil
    · have hc : c ∈ Nat.toDigits b i := by rw [hd]; exact List.mem_cons_self ..
      rw [hd] at he
      rw [(List.cons.inj he).1] at hc
      exact minus_notMem_toDigits hb hb16 hc
  cases m with
  | ofNat i =>
      cases n with
      | ofNat j =>
          obtain ⟨rfl, hr⟩ := hdigits i j h
          exact ⟨rfl, hr⟩
      | negSucc j => exact absurd h (hsign i r₁ _ r₂)
  | negSucc i =>
      cases n with
      | ofNat j => exact absurd h.symm (hsign j r₂ _ r₁)
      | negSucc j =>
          obtain ⟨hij, hr⟩ := hdigits (i + 1) (j + 1) (List.cons.inj h).2
          exact ⟨by rw [Nat.succ.inj hij], hr⟩
