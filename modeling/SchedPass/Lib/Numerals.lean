import Mathlib.Data.List.Induction
import Mathlib.Tactic.Ring
import SchedPass.Lib.Delimited

set_option autoImplicit false

/-! # Decimal numerals

Python's `int` reads the decimal digits of every script, `str` writes ASCII digits and no leading zero. So
`str` gives a numeral back exactly when it is written that way (`toDigits_ofDigitChars`), and a numeral with
more digits behind it only if the number behind has as many digits as before (`toDigits_shift_iff`). -/

/-- The digits of a Python: the value of a decimal digit (`unicodedata.decimal`), what `str.isdigit` takes
    beside these, and the most digits that `int` takes (`sys.get_int_max_str_digits`: 0 is no limit, any other
    is 640 at least). On ASCII all versions of Unicode agree. -/
structure PyDigits where
  decimal : Char → Option ℕ
  otherDigit : Char → Bool
  maxStrDigits : ℕ
  decimal_ascii : ∀ c : Char, c.toNat < 128 → decimal c = if c.isDigit then some (c.toNat - 48) else none
  otherDigit_ascii : ∀ c : Char, c.toNat < 128 → otherDigit c = false
  maxStrDigits_ge : maxStrDigits = 0 ∨ 640 ≤ maxStrDigits

namespace PyDigits

variable (py : PyDigits)

/-- What `\d` matches. -/
def isDecimal (c : Char) : Bool := (py.decimal c).isSome

/-- `s.isdigit()`. -/
def isdigit (s : List Char) : Bool := s ≠ [] && s.all fun c => py.isDecimal c || py.otherDigit c

/-- The number of digits is within the limit. -/
def Fits (n : ℕ) : Prop := py.maxStrDigits = 0 ∨ n ≤ py.maxStrDigits

instance (n : ℕ) : Decidable (py.Fits n) := inferInstanceAs (Decidable (_ ∨ _))

def value (s : List Char) : ℕ := s.foldl (fun n c => 10 * n + (py.decimal c).getD 0) 0

/-- `int(s)` of a text of digits; `none` when it raises. -/
def int (s : List Char) : Option ℕ :=
  if s ≠ [] ∧ s.all py.isDecimal ∧ py.Fits s.length then some (py.value s) else none

/-- The ASCII digits only, with the limit that CPython starts with. -/
def ascii : PyDigits where
  decimal c := if c.isDigit then some (c.toNat - 48) else none
  otherDigit _ := false
  maxStrDigits := 4300
  decimal_ascii _ _ := rfl
  otherDigit_ascii _ _ := rfl
  maxStrDigits_ge := .inr (by decide)

variable {py}

theorem toNat_of_isDigit {c : Char} (h : c.isDigit = true) : 48 ≤ c.toNat ∧ c.toNat ≤ 57 := by
  rw [Char.isDigit, Bool.and_eq_true, decide_eq_true_eq, decide_eq_true_eq, ge_iff_le, UInt32.le_iff_toNat_le,
    UInt32.le_iff_toNat_le] at h
  exact h

theorem decimal_of_isDigit {c : Char} (h : c.isDigit = true) : py.decimal c = some (c.toNat - 48) := by
  rw [py.decimal_ascii c (Nat.lt_of_le_of_lt (toNat_of_isDigit h).2 (by decide)), if_pos h]

theorem isDecimal_of_isDigit {c : Char} (h : c.isDigit = true) : py.isDecimal c = true := by
  rw [isDecimal, decimal_of_isDigit h]
  rfl

theorem isDecimal_ascii {c : Char} (h : c.toNat < 128) : py.isDecimal c = c.isDigit := by
  rw [isDecimal, py.decimal_ascii c h]
  split
  · next hdigit => exact hdigit.symm
  · next hdigit => exact (Bool.not_eq_true _ ▸ hdigit : c.isDigit = false).symm

/-- ASCII characters that are not digits. -/
theorem isDecimal_eq_false_of_all {s : List Char} (h : (s.all fun c => c.toNat < 128 && !c.isDigit) = true) :
    ∀ c ∈ s, py.isDecimal c = false := by
  intro c hc
  have hascii := List.all_eq_true.1 h c hc
  rw [Bool.and_eq_true, decide_eq_true_eq, Bool.not_eq_true'] at hascii
  rw [isDecimal_ascii hascii.1, hascii.2]

theorem int_of_decimal {s : List Char} (hne : s ≠ []) (hdecimal : ∀ c ∈ s, py.isDecimal c = true) :
    py.int s = if py.Fits s.length then some (py.value s) else none := by
  simp only [int, and_iff_right hne, and_iff_right (List.all_eq_true.2 hdecimal)]

/-! ## Values -/

theorem foldl_value (s : List Char) (init : ℕ) :
    s.foldl (fun n c => 10 * n + (py.decimal c).getD 0) init = init * 10 ^ s.length + py.value s := by
  induction s generalizing init with
  | nil => simp [value]
  | cons c s ih =>
      rw [value, List.foldl_cons, List.foldl_cons, ih, ih (10 * 0 + _), List.length_cons, Nat.pow_succ]
      ring

theorem value_append (s t : List Char) : py.value (s ++ t) = py.value s * 10 ^ t.length + py.value t := by
  rw [value, List.foldl_append, foldl_value]
  rfl

theorem value_eq_ofDigitChars {s : List Char} (h : ∀ c ∈ s, c.isDigit = true) :
    py.value s = Nat.ofDigitChars 10 s 0 := by
  have hfold : ∀ init, s.foldl (fun n c => 10 * n + (py.decimal c).getD 0) init = Nat.ofDigitChars 10 s init := by
    induction s with
    | nil => exact fun _ => rfl
    | cons c s ih =>
        obtain ⟨hc, hs⟩ := List.forall_mem_cons.1 h
        intro init
        rw [List.foldl_cons, ih hs, Nat.ofDigitChars_cons, decimal_of_isDigit hc]
        rfl
  exact hfold 0

theorem isDigit_of_mem_toDigits {n : ℕ} {c : Char} (h : c ∈ Nat.toDigits 10 n) : c.isDigit = true :=
  Nat.isDigit_of_mem_toDigits (by decide) (by decide) h

theorem value_toDigits (n : ℕ) : py.value (Nat.toDigits 10 n) = n := by
  rw [value_eq_ofDigitChars fun _ => isDigit_of_mem_toDigits, Nat.ofDigitChars_ten_toDigits]

theorem all_isDecimal_toDigits (n : ℕ) : ∀ c ∈ Nat.toDigits 10 n, py.isDecimal c = true :=
  fun _ hc => isDecimal_of_isDigit (isDigit_of_mem_toDigits hc)

/-- `str(n).isdigit()`. -/
theorem isdigit_toDigits (n : ℕ) : py.isdigit (Nat.toDigits 10 n) = true := by
  rw [isdigit, Bool.and_eq_true, decide_eq_true_eq, List.all_eq_true]
  exact ⟨Nat.toDigits_ne_nil, fun c hc => by rw [all_isDecimal_toDigits n c hc, Bool.true_or]⟩

/-- `int(str(n))` of a 64-bit number. -/
theorem int_toDigits {n : ℕ} (hn : n < 2 ^ 64) : py.int (Nat.toDigits 10 n) = some n := by
  have hlen : (Nat.toDigits 10 n).length ≤ 20 :=
    (Nat.length_toDigits_le_iff (by decide) (by decide)).2 (Nat.lt_trans hn (by decide))
  have hfits : py.Fits (Nat.toDigits 10 n).length := py.maxStrDigits_ge.imp id fun h => by omega
  rw [int_of_decimal Nat.toDigits_ne_nil (all_isDecimal_toDigits n), if_pos hfits, value_toDigits]

/-- A digit is written as its value. -/
theorem exists_digitChar {c : Char} (h : c.isDigit = true) : ∃ d < 10, c = Nat.digitChar d := by
  obtain ⟨hlo, hhi⟩ := toNat_of_isDigit h
  refine ⟨c.toNat - 48, by omega, Char.toNat_inj.1 ?_⟩
  rw [Nat.toNat_digitChar_of_lt_ten (by omega)]
  omega

end PyDigits

/-! ## Writing a numeral back -/

theorem pos_of_head_toDigits {n : ℕ} (h : (Nat.toDigits 10 n).head? ≠ some '0') : 0 < n := by
  by_contra hn
  rw [Nat.eq_zero_of_not_pos hn, Nat.toDigits_zero] at h
  exact h rfl

/-- **A numeral of ASCII digits without a leading zero** is what its value is written as. -/
theorem toDigits_ofDigitChars {s : List Char} (hne : s ≠ []) (hdigit : ∀ c ∈ s, c.isDigit = true)
    (hzero : s.head? ≠ some '0') : Nat.toDigits 10 (Nat.ofDigitChars 10 s 0) = s := by
  induction s using List.reverseRecOn with
  | nil => exact absurd rfl hne
  | append_singleton s c ih =>
      obtain ⟨d, hd, rfl⟩ := PyDigits.exists_digitChar (hdigit c List.mem_concat_self)
      rw [Nat.ofDigitChars_append, Nat.ofDigitChars_cons_digitChar_of_lt_ten hd, Nat.ofDigitChars_nil]
      by_cases hs : s = []
      · rw [hs, Nat.ofDigitChars_nil, Nat.mul_zero, Nat.zero_add, Nat.toDigits_of_lt_base hd, List.nil_append]
      · rw [List.head?_append_of_ne_nil _ hs] at hzero
        have hback := ih hs (fun c hc => hdigit c (List.mem_append_left _ hc)) hzero
        have hpos : 0 < Nat.ofDigitChars 10 s 0 := pos_of_head_toDigits (by rwa [hback])
        rw [← Nat.toDigits_append_toDigits (by decide) hpos hd, hback, Nat.toDigits_of_lt_base hd]

/-- A positive number is written without a leading zero. -/
theorem head_toDigits {n : ℕ} (hn : 0 < n) : (Nat.toDigits 10 n).head? ≠ some '0' := by
  induction n using Nat.strongRecOn with
  | ind n ih =>
      by_cases hlt : n < 10
      · rw [Nat.toDigits_of_lt_base hlt]
        have key : ∀ d < 10, 0 < d → [Nat.digitChar d].head? ≠ some '0' := by decide
        exact key n hlt hn
      · rw [Nat.toDigits_of_base_le (by decide) (not_lt.1 hlt), List.head?_append_of_ne_nil _ Nat.toDigits_ne_nil]
        exact ih (n / 10) (Nat.div_lt_self hn (by decide)) (Nat.div_pos (not_lt.1 hlt) (by decide))

/-- A numeral without a leading zero, shifted by the length of another one, is written ahead of it. -/
theorem toDigits_shift (py : PyDigits) {s : List Char} (hne : s ≠ []) (hdigit : ∀ c ∈ s, c.isDigit = true)
    (hzero : s.head? ≠ some '0') (n : ℕ) :
    Nat.toDigits 10 (py.value s * 10 ^ (Nat.toDigits 10 n).length + n) = s ++ Nat.toDigits 10 n := by
  have hall : ∀ c ∈ s ++ Nat.toDigits 10 n, c.isDigit = true := by
    intro c hc
    exact (List.mem_append.1 hc).elim (hdigit c) PyDigits.isDigit_of_mem_toDigits
  have hvalue : Nat.ofDigitChars 10 (s ++ Nat.toDigits 10 n) 0
      = py.value s * 10 ^ (Nat.toDigits 10 n).length + n := by
    rw [← @PyDigits.value_eq_ofDigitChars py _ hall, PyDigits.value_append, PyDigits.value_toDigits]
  rw [← hvalue]
  refine toDigits_ofDigitChars (List.append_ne_nil_of_left_ne_nil hne _) hall ?_
  rwa [List.head?_append_of_ne_nil _ hne]

theorem value_pos {py : PyDigits} {s : List Char} (hne : s ≠ []) (hdigit : ∀ c ∈ s, c.isDigit = true)
    (hzero : s.head? ≠ some '0') : 0 < py.value s := by
  rw [PyDigits.value_eq_ofDigitChars hdigit]
  exact pos_of_head_toDigits (by rwa [toDigits_ofDigitChars hne hdigit hzero])

/-- Two digits or more are not written with a leading zero. -/
theorem head_ne_zero_of_toDigits {m : ℕ} {s t : List Char} (hs : s ≠ []) (ht : t ≠ [])
    (h : Nat.toDigits 10 m = s ++ t) : s.head? ≠ some '0' := by
  have hm : 0 < m := by
    by_contra hnot
    have hlen := congrArg List.length h
    have hs := List.length_pos_of_ne_nil hs
    have ht := List.length_pos_of_ne_nil ht
    rw [Nat.eq_zero_of_not_pos hnot, Nat.toDigits_zero, List.length_append, List.length_singleton] at hlen
    omega
  have hhead := head_toDigits hm
  rwa [h, List.head?_append_of_ne_nil _ hs] at hhead

/-- **A numeral with more digits behind it is given back** exactly when it is written in ASCII digits without
    a leading zero and is shifted by as many places as there are digits behind. -/
theorem toDigits_shift_iff (py : PyDigits) {s : List Char} (hne : s ≠ []) (k n : ℕ) :
    Nat.toDigits 10 (py.value s * 10 ^ k + n) = s ++ Nat.toDigits 10 n ↔
      (∀ c ∈ s, c.isDigit = true) ∧ s.head? ≠ some '0' ∧ (Nat.toDigits 10 n).length = k := by
  constructor
  · intro h
    have hdigit : ∀ c ∈ s, c.isDigit = true := by
      intro c hc
      exact PyDigits.isDigit_of_mem_toDigits (h ▸ List.mem_append_left _ hc)
    have hzero := head_ne_zero_of_toDigits hne Nat.toDigits_ne_nil h
    refine ⟨hdigit, hzero, ?_⟩
    have hsame := toDigits_injective (by decide) (by decide) ((toDigits_shift py hne hdigit hzero n).trans h.symm)
    have hpow := Nat.eq_of_mul_eq_mul_left (value_pos hne hdigit hzero) (Nat.add_right_cancel hsame)
    exact Nat.pow_right_injective (by decide : 2 ≤ 10) hpow
  · rintro ⟨hdigit, hzero, rfl⟩
    exact toDigits_shift py hne hdigit hzero n
