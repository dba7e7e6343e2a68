import Mathlib

set_option autoImplicit false

/-! # Signs and zeros in floating-point arithmetic

Lean's model of the IEEE formats (`Float32.Model`, `Float.Model`) computes on unpacked numbers and
packs every result. Packing keeps zeros, not-a-numbers and signs (`Vanishing.pack`, `HasSign.pack`),
so facts about signs carry through a computation. For a score of the form `a - b - h` they say that
it is not positive when `a` and `b` vanish and `h` is not negative (`not_pos_sub_sub`). -/

open Float.Model (Format UnpackedFloat)
open Float.Model.UnpackedFloat (Sign unpackSign packComponents)

namespace FloatSign

/-- Not a number, or zero. -/
def Vanishing : UnpackedFloat → Prop
  | .notANumber | .zero _ => True
  | .infinity _ | .finite .. => False

/-- Zero, or a number of sign `s`. -/
def HasSign (s : Sign) : UnpackedFloat → Prop
  | .zero _ => True
  | .infinity t => t = s
  | .finite t _ _ _ => t = s
  | .notANumber => False

/-- A number rounded to another format. -/
def roundTo (spec : Format) : UnpackedFloat → UnpackedFloat
  | .finite s m e _ => UnpackedFloat.round spec s m e
  | .notANumber => .notANumber
  | .infinity s => .infinity s
  | .zero s => .zero s

/-! ## Unpacking a packed number -/

section Pack

variable {spec : Format} {s : Sign} {e : BitVec spec.exponentBits}
  {m : BitVec spec.mantissaBitsWithoutImplicit} {x : UnpackedFloat}

theorem unpack_packComponents :
    UnpackedFloat.unpack spec (packComponents spec s e m) =
      if e = -1#_ then if m = 0#_ then .infinity s else .notANumber
      else if e = 0#_ then
        if h : m = 0#_ then .zero s
        else .finite s m.toNat
          ((e.toNat : Int) - (spec.exponentBias + spec.mantissaBitsWithoutImplicit) + 1)
          (by simpa [BitVec.toNat_pos, BitVec.pos_iff_ne_zero])
      else .finite s (1#1 ++ m).toNat
        ((e.toNat : Int) - (spec.exponentBias + spec.mantissaBitsWithoutImplicit)) (by simp) := by
  simp only [UnpackedFloat.unpack, Float.Model.UnpackedFloat.unpackMantissa_packComponents,
    Float.Model.UnpackedFloat.unpackExponent_packComponents,
    Float.Model.UnpackedFloat.unpackSign_packComponents,
    Float.Model.UnpackedFloat.Sign.ofBitVec_toBitVec]

theorem exponent_zero_ne (spec : Format) : (0#(spec.exponentBits)) ≠ -1#_ := by
  have hpow := Nat.one_lt_two_pow (Nat.pos_iff_ne_zero.1 spec.he)
  rw [BitVec.neg_one_eq_allOnes, ne_eq, ← BitVec.toNat_inj, BitVec.toNat_ofNat, Nat.zero_mod,
    BitVec.toNat_allOnes]
  omega

theorem hasSign_packComponents (h : e = -1#_ → m = 0#_) :
    HasSign s (UnpackedFloat.unpack spec (packComponents spec s e m)) := by
  rw [unpack_packComponents]
  split
  · next he =>
      rw [if_pos (h he)]
      rfl
  · split
    · split
      · trivial
      · rfl
    · rfl

theorem Vanishing.pack (h : Vanishing x) :
    Vanishing (UnpackedFloat.unpack spec (UnpackedFloat.pack spec x)) := by
  cases x with
  | notANumber =>
      rw [UnpackedFloat.pack, UnpackedFloat.unpack_packedNaN]
      trivial
  | zero s =>
      rw [UnpackedFloat.pack, UnpackedFloat.unpack_packedZero]
      trivial
  | infinity s => exact h.elim
  | finite s m e hm => exact h.elim

theorem HasSign.pack (h : HasSign s x) :
    HasSign s (UnpackedFloat.unpack spec (UnpackedFloat.pack spec x)) := by
  cases x with
  | notANumber => exact h.elim
  | zero t =>
      rw [UnpackedFloat.pack, UnpackedFloat.unpack_packedZero]
      trivial
  | infinity t =>
      obtain rfl : t = s := h
      exact hasSign_packComponents fun _ => rfl
  | finite t m e hm =>
      obtain rfl : t = s := h
      simp only [UnpackedFloat.pack]
      split
      · exact hasSign_packComponents fun _ => rfl
      · split
        · next hlt _ =>
            -- the biased exponent lies below the one of infinity
            refine hasSign_packComponents fun he => absurd he ?_
            rw [BitVec.neg_one_eq_allOnes, ← BitVec.toNat_inj, BitVec.toNat_ofNat,
              Nat.mod_eq_of_lt (by omega), BitVec.toNat_allOnes]
            omega
        · exact hasSign_packComponents fun he => absurd he (exponent_zero_ne spec)

end Pack

/-! ## Arithmetic -/

section Arith

variable {spec : Format} {x y : UnpackedFloat}

theorem vanishing_zero_mul (s : Sign) (x : UnpackedFloat) :
    Vanishing (UnpackedFloat.mul spec (.zero s) x) := by
  cases x <;> trivial

theorem Vanishing.sub (hx : Vanishing x) (hy : Vanishing y) :
    Vanishing (UnpackedFloat.sub spec x y) := by
  cases x with
  | notANumber => trivial
  | infinity s => exact hx.elim
  | finite s m e hm => exact hx.elim
  | zero s =>
      cases y with
      | notANumber => trivial
      | infinity t => exact hy.elim
      | finite t m e hm => exact hy.elim
      | zero t =>
          simp only [UnpackedFloat.sub]
          cases s == -t <;> trivial

/-- A vanishing number minus a non-negative one is not a number, or is not positive. -/
theorem Vanishing.sub_nonneg (hx : Vanishing x) (hy : HasSign .positive y) :
    UnpackedFloat.sub spec x y = .notANumber ∨ HasSign .negative (UnpackedFloat.sub spec x y) := by
  cases x with
  | notANumber => exact Or.inl rfl
  | infinity s => exact hx.elim
  | finite s m e hm => exact hx.elim
  | zero s =>
      right
      cases y with
      | notANumber => exact hy.elim
      | zero t =>
          simp only [UnpackedFloat.sub]
          split <;> trivial
      | infinity t =>
          obtain rfl : t = .positive := hy
          rfl
      | finite t m e hm =>
          obtain rfl : t = .positive := hy
          rfl

theorem hasSign_round (s : Sign) (m : ℕ) (e : Int) : HasSign s (UnpackedFloat.round spec s m e) := by
  simp only [UnpackedFloat.round, UnpackedFloat.roundWithAccuracy]
  split
  · trivial
  · rfl

/-- Rounding to another format keeps the sign. -/
theorem HasSign.roundTo {s : Sign} (h : HasSign s x) : HasSign s (roundTo spec x) := by
  cases x with
  | notANumber => exact h.elim
  | zero t => trivial
  | infinity t => exact h
  | finite t m e hm =>
      obtain rfl : t = s := h
      exact hasSign_round t m e

theorem hasSign_of_le {s : Sign} (h : UnpackedFloat.le (.zero s) x = true) :
    HasSign .positive x := by
  cases x with
  | notANumber => exact absurd h Bool.false_ne_true
  | zero t => trivial
  | infinity t =>
      cases t with
      | positive => rfl
      | negative => exact absurd h Bool.false_ne_true
  | finite t m e hm =>
      cases t with
      | positive => rfl
      | negative => exact absurd h Bool.false_ne_true

theorem not_zero_lt (s : Sign) (hx : x = .notANumber ∨ HasSign .negative x) :
    UnpackedFloat.lt (.zero s) x = false := by
  rcases hx with rfl | hx
  · rfl
  · cases x with
    | notANumber => rfl
    | zero t => rfl
    | infinity t =>
        obtain rfl : t = .negative := hx
        rfl
    | finite t m e hm =>
        obtain rfl : t = .negative := hx
        rfl

end Arith

/-! ## Single precision -/

theorem vanishing_ofBits_zero_mul (x : Float32.Model) :
    Vanishing (Float32.Model.ofBits 0 * x).unpack :=
  (vanishing_zero_mul .positive x.unpack).pack

theorem hasSign_of_zero_le {x : Float.Model} (h : Float.Model.ofBits 0 ≤ x) :
    HasSign .positive x.unpack :=
  hasSign_of_le h

/-- **A score `a - b - h` is not positive** when `a` and `b` vanish and `h` is not negative. -/
theorem not_pos_sub_sub {a b h : Float32.Model} (ha : Vanishing a.unpack) (hb : Vanishing b.unpack)
    (hh : HasSign .positive h.unpack) : (Float32.Model.ofBits 0).lt (a - b - h) = false := by
  have hab : Vanishing (a - b).unpack := (ha.sub hb).pack
  have hscore : (a - b - h).unpack = .notANumber ∨ HasSign .negative (a - b - h).unpack := by
    rcases @Vanishing.sub_nonneg .binary32 _ _ hab hh with heq | hneg
    · left
      show UnpackedFloat.unpack _ (UnpackedFloat.pack _ _) = _
      rw [heq, UnpackedFloat.pack, UnpackedFloat.unpack_packedNaN]
    · exact Or.inr hneg.pack
  exact not_zero_lt .positive hscore

end FloatSign
