import SchedPass.Lib.ByteMem

set_option autoImplicit false

/-! # Address spans

A `Span` is a stretch of addresses. Writes covered by some spans leave memory as it is elsewhere
(`AgreesOff`), so a load from a span apart from them does not notice (`AgreesOff.load`). -/

/-- The addresses `[start, start + size)`. -/
structure Span where
  start : ℕ
  size : ℕ
  deriving DecidableEq, Repr

namespace Span

/-- The access of `n` bytes at `a` stays inside the span. -/
def Covers (s : Span) (a n : ℕ) : Prop := s.start ≤ a ∧ a + n ≤ s.start + s.size

/-- The spans share no address. -/
def Apart (s t : Span) : Prop := s.start + s.size ≤ t.start ∨ t.start + t.size ≤ s.start

instance (s : Span) (a n : ℕ) : Decidable (s.Covers a n) := inferInstanceAs (Decidable (_ ∧ _))

instance (s t : Span) : Decidable (s.Apart t) := inferInstanceAs (Decidable (_ ∨ _))

theorem Apart.symm {s t : Span} (h : s.Apart t) : t.Apart s := Or.symm h

/-- A byte of a covered access is covered. -/
theorem Covers.byte {s : Span} {a n i : ℕ} (h : s.Covers a n) (hlo : a ≤ i) (hhi : i < a + n) :
    s.Covers i 1 := by
  unfold Covers at *
  omega

/-- Spans apart do not cover one byte both. -/
theorem Apart.not_covers {s t : Span} (h : s.Apart t) {a : ℕ} (hs : s.Covers a 1) :
    ¬ t.Covers a 1 := by
  unfold Apart Covers at *
  omega

end Span

/-- One of the spans covers the access. -/
def CoveredBy (spans : List Span) (a n : ℕ) : Prop := ∃ s ∈ spans, s.Covers a n

instance (spans : List Span) (a n : ℕ) : Decidable (CoveredBy spans a n) :=
  inferInstanceAs (Decidable (∃ s ∈ spans, s.Covers a n))

/-- The memories agree outside the spans. -/
def AgreesOff (spans : List Span) (m m' : ByteMem) : Prop :=
  ∀ a, (∀ s ∈ spans, ¬ s.Covers a 1) → m' a = m a

namespace AgreesOff

variable {spans : List Span} {m m' m'' : ByteMem}

theorem refl (spans : List Span) (m : ByteMem) : AgreesOff spans m m := fun _ _ => rfl

theorem trans (h : AgreesOff spans m m') (h' : AgreesOff spans m' m'') : AgreesOff spans m m'' :=
  fun a ha => (h' a ha).trans (h a ha)

theorem mono {spans' : List Span} (h : AgreesOff spans m m') (hsub : spans ⊆ spans') :
    AgreesOff spans' m m' :=
  fun a ha => h a fun s hs => ha s (hsub hs)

/-- Every change lies in a span that the others cover. -/
theorem of_covered {spans' : List Span} (h : AgreesOff spans m m')
    (hcovered : ∀ s ∈ spans, CoveredBy spans' s.start s.size) : AgreesOff spans' m m' := by
  intro a ha
  refine h a fun s hs hcovers => ?_
  obtain ⟨t, ht, htcovers⟩ := hcovered s hs
  exact ha t ht (htcovers.byte hcovers.1 (by have := hcovers.2; omega))

/-- A covered write. -/
theorem store {a : ℕ} {bs : List UInt8} (h : CoveredBy spans a bs.length) :
    AgreesOff spans m (m.store a bs) := by
  obtain ⟨s, hs, hcover⟩ := h
  intro i hi
  refine ByteMem.store_apply_of_not_mem m a bs ?_
  by_contra hin
  exact hi s hs (hcover.byte (by omega) (by omega))

/-- A byte of a span apart from all that is written. -/
theorem apply (h : AgreesOff spans m m') {t : Span} (hapart : ∀ s ∈ spans, s.Apart t) {a : ℕ}
    (ha : t.Covers a 1) : m' a = m a :=
  h a fun s hs => (hapart s hs).symm.not_covers ha

theorem load (h : AgreesOff spans m m') {t : Span} (hapart : ∀ s ∈ spans, s.Apart t) {a n : ℕ}
    (ha : t.Covers a n) : m'.load a n = m.load a n :=
  ByteMem.load_congr fun _ hlo hhi => h.apply hapart (ha.byte hlo hhi)

end AgreesOff
