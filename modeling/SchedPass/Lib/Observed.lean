import Mathlib.Data.List.Infix

set_option autoImplicit false

/-! # Computations that are observed for a while

An observation is the value, if the computation has returned by then, and the events so far.
`CutShort r r'` says that `r` is the same computation, observed for a shorter while: a prefix of the
events and no value yet, or the same observation. Two computations of which the second has further
events are compared step by step, in either direction (`Comparison`). -/

universe u v w

variable {V : Type u} {W : Type v} {E : Type w}

/-- The value, if there is one yet, and the events so far. -/
abbrev Observed (V : Type u) (E : Type w) := Option V × List E

namespace Observed

/-- Once the value is there, go on with it. -/
def andThen (r : Observed V E) (k : V → List E → Observed W E) : Observed W E :=
  match r with
  | (some v, h) => k v h
  | (none, h) => (none, h)

@[simp] theorem andThen_some (v : V) (h : List E) (k : V → List E → Observed W E) :
    andThen (some v, h) k = k v h := rfl

@[simp] theorem andThen_none (h : List E) (k : V → List E → Observed W E) :
    andThen (none, h) k = (none, h) := rfl

/-- The observation comes behind the events `h`. -/
def Behind (h : List E) (r : Observed V E) : Prop := h <+: r.2

theorem Behind.andThen {h : List E} {r : Observed V E} {k : V → List E → Observed W E}
    (hr : Behind h r) (hk : ∀ v h', Behind h' (k v h')) : Behind h (r.andThen k) := by
  obtain ⟨v, h'⟩ := r
  cases v with
  | none => exact hr
  | some v => exact List.IsPrefix.trans hr (hk v h')

/-- The first observation is the second one, cut short. -/
def CutShort (r r' : Observed V E) : Prop := r = r' ∨ r.1 = none ∧ r.2 <+: r'.2

namespace CutShort

variable {r : Observed V E}

theorem refl (r : Observed V E) : CutShort r r := Or.inl rfl

theorem of_behind {h : List E} (hr : Behind h r) : CutShort (none, h) r := Or.inr ⟨rfl, hr⟩

end CutShort

/-! ## Looking at some of the events -/

section

variable {D : Type w} (p : D → Option E)

/-- The events that `p` keeps. -/
def erase (r : Observed V D) : Observed V E := (r.1, r.2.filterMap p)

@[simp] theorem erase_fst (r : Observed V D) : (erase p r).1 = r.1 := rfl

@[simp] theorem erase_snd (r : Observed V D) : (erase p r).2 = r.2.filterMap p := rfl

theorem Behind.erase {h : List D} {r : Observed V D} (hr : Behind h r) :
    Behind (h.filterMap p) (r.erase p) :=
  hr.filterMap p

/-- A way to compare an observation with one of which some events are looked at. -/
structure Comparison (Rel : Observed V E → Observed V E → Prop) : Prop where
  refl : ∀ r, Rel r r
  andThen : ∀ {r : Observed V E} {r' : Observed V D} {k : V → List E → Observed V E}
    {k' : V → List D → Observed V D}, Rel r (r'.erase p) →
    (∀ v h, Rel (k v (h.filterMap p)) ((k' v h).erase p)) → (∀ v h, Behind h (k v h)) →
    (∀ v h, Behind h (k' v h)) → Rel (r.andThen k) ((r'.andThen k').erase p)

/-- The first observation may be the shorter one. -/
theorem comparison_cutShort :
    Comparison p fun r r' : Observed V E => CutShort r r' where
  refl := CutShort.refl
  andThen := by
    rintro ⟨v, l⟩ ⟨v', l'⟩ k k' h hk - hgrows
    rcases h with h | ⟨hnone, hprefix⟩
    · obtain ⟨rfl, rfl⟩ := Prod.mk.inj h
      cases v with
      | none => exact CutShort.refl _
      | some v => exact hk v l'
    · cases hnone
      refine CutShort.of_behind ?_
      cases v' with
      | none => exact hprefix
      | some v => exact List.IsPrefix.trans hprefix ((hgrows v l').erase p)

/-- The second one may be. -/
theorem comparison_cutShort_flip :
    Comparison p fun r r' : Observed V E => CutShort r' r where
  refl := CutShort.refl
  andThen := by
    rintro ⟨v, l⟩ ⟨v', l'⟩ k k' h hk hgrows -
    rcases h with h | ⟨hnone, hprefix⟩
    · obtain ⟨rfl, rfl⟩ := Prod.mk.inj h
      cases v' with
      | none => exact CutShort.refl _
      | some v => exact hk v l'
    · cases hnone
      exact CutShort.of_behind (Behind.andThen hprefix hgrows)

end

end Observed
