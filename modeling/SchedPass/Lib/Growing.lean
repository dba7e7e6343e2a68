import Mathlib.Order.Defs.Unbundled

set_option autoImplicit false

/-! # Programs whose state only grows

`Grows I R c s Q` says of a program `c` in the state monad that from the state `s` it ends in a state
with the invariant `I`, above `s` in the preorder `R` of growth, and with `Q` of its value. The rule for
a sequence hands the growth so far to what comes next (`Grows.bind`), so what growth keeps is
established once. `Ends c s Q` says `Q` only, also of a program that does not only grow. -/

universe u v

variable {σ α β : Type u} {ι : Type v}

def Grows (I : σ → Prop) (R : σ → σ → Prop) (c : StateM σ α) (s : σ) (Q : α → σ → Prop) : Prop :=
  I (c.run s).2 ∧ R s (c.run s).2 ∧ Q (c.run s).1 (c.run s).2

/-- The program ends with `Q` of its value and its state. -/
def Ends (c : StateM σ α) (s : σ) (Q : α → σ → Prop) : Prop := Q (c.run s).1 (c.run s).2

theorem Ends.bind {c : StateM σ α} {k : α → StateM σ β} {s : σ} {Q : α → σ → Prop}
    {Q' : β → σ → Prop} (hc : Ends c s Q) (hk : ∀ a s', Q a s' → Ends (k a) s' Q') :
    Ends (c >>= k) s Q' :=
  hk _ _ hc

theorem Grows.ends {I : σ → Prop} {R : σ → σ → Prop} {c : StateM σ α} {s : σ} {Q : α → σ → Prop}
    (h : Grows I R c s Q) : Ends c s fun a s' => I s' ∧ R s s' ∧ Q a s' := h

namespace Grows

variable {I : σ → Prop} {R : σ → σ → Prop} [IsPreorder σ R] {c : StateM σ α} {k : α → StateM σ β}
  {s : σ} {Q Q₁ : α → σ → Prop} {Q' : β → σ → Prop}

theorem pure (hI : I s) {a : α} (hQ : Q a s) : Grows I R (Pure.pure a) s Q :=
  ⟨hI, Std.Refl.refl s, hQ⟩

/-- What holds of the state need only be kept by growth to be there for what comes next. -/
theorem bind (hc : Grows I R c s Q)
    (hk : ∀ a s', I s' → R s s' → Q a s' → Grows I R (k a) s' Q') : Grows I R (c >>= k) s Q' := by
  obtain ⟨hI, hR, hQ⟩ := hc
  obtain ⟨hI', hR', hQ'⟩ := hk _ _ hI hR hQ
  exact ⟨hI', IsTrans.trans _ _ _ hR hR', hQ'⟩

omit [IsPreorder σ R] in
theorem mono (hc : Grows I R c s Q) (hQ : ∀ a s', I s' → R s s' → Q a s' → Q₁ a s') :
    Grows I R c s Q₁ :=
  ⟨hc.1, hc.2.1, hQ _ _ hc.1 hc.2.1 hc.2.2⟩

omit [IsPreorder σ R] in
theorem and {Q₂ : α → σ → Prop} (hc : Grows I R c s Q) (hc' : Ends c s Q₂) :
    Grows I R c s fun a s' => Q a s' ∧ Q₂ a s' :=
  ⟨hc.1, hc.2.1, hc.2.2, hc'⟩

/-- A loop: each round starts from a state above the first one. -/
theorem forM {l : List ι} {f : ι → StateM σ PUnit} (hI : I s)
    (h : ∀ x ∈ l, ∀ s', I s' → R s s' → Grows I R (f x) s' fun _ _ => True) :
    Grows I R (ForM.forM l f) s fun _ _ => True := by
  induction l generalizing s with
  | nil => exact Grows.pure hI trivial
  | cons x l ih =>
      rw [List.forM_cons]
      refine (h x (List.mem_cons_self ..) s hI (Std.Refl.refl s)).bind fun _ s' hI' hR _ => ?_
      exact ih hI' fun y hy s'' hI'' hR' =>
        h y (List.mem_cons_of_mem x hy) s'' hI'' (IsTrans.trans _ _ _ hR hR')

end Grows
