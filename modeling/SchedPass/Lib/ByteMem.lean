import Mathlib.Data.Nat.Notation
import Mathlib.Logic.Function.Basic
import Mathlib.Tactic.Ring

set_option autoImplicit false

/-! # Byte-addressed memory

A memory is a total function from addresses to bytes. `load` reads a little-endian natural of any
width, `store` writes a byte list, `storeWords` a list of 32-bit words. The lemmas are the usual
frame and round-trip laws: a load sees only the bytes it covers (`load_congr`), a store changes only
the bytes it covers (`store_apply_of_not_mem`), and reading back a stored number gives its residue
(`load_store_toBytes`). -/

/-- Byte-addressed memory: every address holds one byte. -/
abbrev ByteMem := ℕ → UInt8

namespace ByteMem

/-- The memory that is zero everywhere. -/
def zeroed : ByteMem := fun _ => 0

/-! ## Little-endian bytes of a number -/

/-- The `w` little-endian bytes of `v`; higher bits are dropped. -/
def toBytes : ℕ → ℕ → List UInt8
  | 0, _ => []
  | w + 1, v => UInt8.ofNat (v % 256) :: toBytes w (v / 256)

/-- The number with the given little-endian bytes. -/
def ofBytes : List UInt8 → ℕ
  | [] => 0
  | b :: bs => b.toNat + 256 * ofBytes bs

@[simp] theorem length_toBytes (w v : ℕ) : (toBytes w v).length = w := by
  induction w generalizing v with
  | zero => rfl
  | succ w ih => simp [toBytes, ih]

theorem ofBytes_toBytes (w v : ℕ) : ofBytes (toBytes w v) = v % 256 ^ w := by
  induction w generalizing v with
  | zero => simp [toBytes, ofBytes, Nat.mod_one]
  | succ w ih =>
      have hb : (UInt8.ofNat (v % 256)).toNat = v % 256 := by
        rw [UInt8.toNat_ofNat']
        exact Nat.mod_eq_of_lt (Nat.mod_lt v (by decide))
      rw [toBytes, ofBytes, ih, hb, pow_succ', Nat.mod_mul]

/-! ## Loads -/

/-- Little-endian load of `w` bytes at address `a`. -/
def load (m : ByteMem) (a : ℕ) : ℕ → ℕ
  | 0 => 0
  | w + 1 => (m a).toNat + 256 * load m (a + 1) w

/-- The 32-bit word at address `a`. -/
def load32 (m : ByteMem) (a : ℕ) : ℕ := load m a 4

/-- The 64-bit word at address `a`. -/
def load64 (m : ByteMem) (a : ℕ) : ℕ := load m a 8

theorem load_lt (m : ByteMem) (a w : ℕ) : load m a w < 256 ^ w := by
  induction w generalizing a with
  | zero => simp [load]
  | succ w ih =>
      have hb : (m a).toNat < 256 := (m a).toNat_lt
      have := ih (a + 1)
      rw [load, pow_succ]
      omega

/-- A load depends only on the bytes it covers. -/
theorem load_congr {m m' : ByteMem} {a w : ℕ} (h : ∀ i, a ≤ i → i < a + w → m i = m' i) :
    load m a w = load m' a w := by
  induction w generalizing a with
  | zero => rfl
  | succ w ih =>
      rw [load, load, h a (le_refl a) (by omega), ih fun i hi hlt => h i (by omega) (by omega)]

theorem load_eq_zero {m : ByteMem} {a w : ℕ} (h : ∀ i, a ≤ i → i < a + w → m i = 0) :
    load m a w = 0 := by
  induction w generalizing a with
  | zero => rfl
  | succ w ih =>
      rw [load, h a (le_refl a) (by omega), ih fun i hi hlt => h i (by omega) (by omega)]
      rfl

theorem eq_zero_of_load {m : ByteMem} {a w : ℕ} (h : load m a w = 0) {i : ℕ} (hlo : a ≤ i)
    (hhi : i < a + w) : m i = 0 := by
  induction w generalizing a with
  | zero => omega
  | succ w ih =>
      rw [load] at h
      by_cases hi : i = a
      · exact hi ▸ UInt8.toNat_inj.1 (by simpa using Nat.eq_zero_of_add_eq_zero_right h)
      · exact ih (a := a + 1) (by omega) (by omega) (by omega)

/-- A load in two parts. -/
theorem load_add (m : ByteMem) (a v w : ℕ) :
    load m a (v + w) = load m a v + 256 ^ v * load m (a + v) w := by
  induction v generalizing a with
  | zero => simp [load]
  | succ v ih =>
      rw [Nat.succ_add_eq_add_succ v w, ← Nat.add_assoc v w 1, load, load, ih,
        show a + 1 + v = a + (v + 1) by omega]
      ring

/-! ## Stores -/

/-- Write the bytes `bs` at address `a` and up. -/
def store (m : ByteMem) (a : ℕ) : List UInt8 → ByteMem
  | [] => m
  | b :: bs => Function.update (store m (a + 1) bs) a b

/-- Write the 32-bit words `ws` at address `a` and up. -/
def storeWords (m : ByteMem) (a : ℕ) : List ℕ → ByteMem
  | [] => m
  | v :: ws => store (storeWords m (a + 4) ws) a (toBytes 4 v)

theorem store_apply_of_not_mem (m : ByteMem) (a : ℕ) (bs : List UInt8) {i : ℕ}
    (h : i < a ∨ a + bs.length ≤ i) : store m a bs i = m i := by
  induction bs generalizing a with
  | nil => rfl
  | cons b bs ih =>
      rw [List.length_cons] at h
      rw [store, Function.update_of_ne (by omega), ih (a + 1) (by omega)]

theorem store_apply_of_mem (m : ByteMem) (a : ℕ) (bs : List UInt8) {i : ℕ} (h : i < bs.length) :
    store m a bs (a + i) = bs[i] := by
  induction bs generalizing a i with
  | nil => simp at h
  | cons b bs ih =>
      cases i with
      | zero => simp [store]
      | succ i =>
          rw [List.length_cons] at h
          rw [store, Function.update_of_ne (by omega), show a + (i + 1) = a + 1 + i by omega,
            ih (a + 1) (by omega), List.getElem_cons_succ]

theorem load_store_of_disjoint (m : ByteMem) (a : ℕ) (bs : List UInt8) {c w : ℕ}
    (h : c + w ≤ a ∨ a + bs.length ≤ c) : load (store m a bs) c w = load m c w :=
  load_congr fun _ _ _ => store_apply_of_not_mem m a bs (by omega)

theorem load32_store_of_disjoint (m : ByteMem) (a : ℕ) (bs : List UInt8) {c : ℕ}
    (h : c + 4 ≤ a ∨ a + bs.length ≤ c) : load32 (store m a bs) c = load32 m c :=
  load_store_of_disjoint m a bs h

/-- Reading a stored byte list back gives its number. -/
theorem load_store_self (m : ByteMem) (a : ℕ) (bs : List UInt8) :
    load (store m a bs) a bs.length = ofBytes bs := by
  induction bs generalizing a with
  | nil => rfl
  | cons b bs ih =>
      have htail : load (store m a (b :: bs)) (a + 1) bs.length
          = load (store m (a + 1) bs) (a + 1) bs.length :=
        load_congr fun i hi _ => by rw [store, Function.update_of_ne (by omega)]
      rw [List.length_cons, load, htail, ih, ofBytes, store, Function.update_self]

theorem load_store_toBytes (m : ByteMem) (a w v : ℕ) :
    load (store m a (toBytes w v)) a w = v % 256 ^ w := by
  have h := load_store_self m a (toBytes w v)
  rwa [length_toBytes, ofBytes_toBytes] at h

theorem load_store_toBytes_of_lt (m : ByteMem) (a w : ℕ) {v : ℕ} (h : v < 256 ^ w) :
    load (store m a (toBytes w v)) a w = v :=
  (load_store_toBytes m a w v).trans (Nat.mod_eq_of_lt h)

theorem store_append (m : ByteMem) (a : ℕ) (bs cs : List UInt8) :
    store m a (bs ++ cs) = store (store m (a + bs.length) cs) a bs := by
  induction bs generalizing a with
  | nil => rfl
  | cons b bs ih =>
      rw [List.cons_append, store, ih, store, List.length_cons,
        show a + 1 + bs.length = a + (bs.length + 1) by omega]

/-- Two memories agree behind one write where they agree outside it. -/
theorem store_congr {m m' : ByteMem} {a i : ℕ} {bs : List UInt8}
    (h : i < a ∨ a + bs.length ≤ i → m i = m' i) : m.store a bs i = m'.store a bs i := by
  by_cases hi : i < a ∨ a + bs.length ≤ i
  · rw [store_apply_of_not_mem _ _ _ hi, store_apply_of_not_mem _ _ _ hi, h hi]
  · have hmem : i - a < bs.length := by omega
    rw [show i = a + (i - a) by omega, store_apply_of_mem _ _ _ hmem,
      store_apply_of_mem _ _ _ hmem]

/-- Writing one behind the other is writing both. -/
theorem store_store_append (m : ByteMem) (a : ℕ) (bs cs : List UInt8) :
    (m.store a bs).store (a + bs.length) cs = m.store a (bs ++ cs) := by
  rw [store_append]
  funext i
  by_cases hi : i < a ∨ a + bs.length ≤ i
  · rw [store_apply_of_not_mem _ a bs hi]
    exact store_congr fun _ => store_apply_of_not_mem _ _ _ hi
  · rw [store_apply_of_not_mem _ _ cs (by omega)]
    exact store_congr fun hout => absurd hout hi

theorem load_store_zeros_of_mem (m : ByteMem) {a n c w : ℕ} (hlo : a ≤ c) (hhi : c + w ≤ a + n) :
    load (store m a (List.replicate n 0)) c w = 0 := by
  refine load_eq_zero fun i hi hlt => ?_
  have hmem : i - a < (List.replicate n (0 : UInt8)).length := by
    rw [List.length_replicate]
    omega
  rw [show i = a + (i - a) by omega, store_apply_of_mem _ _ _ hmem, List.getElem_replicate]

/-- Zeros written leave a word of zeros, wherever they are written. -/
theorem load_store_zeros {m : ByteMem} {c w : ℕ} (h : load m c w = 0) (a n : ℕ) :
    load (store m a (List.replicate n 0)) c w = 0 := by
  refine load_eq_zero fun i hlo hhi => ?_
  by_cases hi : i < a ∨ a + (List.replicate n (0 : UInt8)).length ≤ i
  · rw [store_apply_of_not_mem _ _ _ hi]
    exact eq_zero_of_load h hlo hhi
  · have hmem : i - a < (List.replicate n (0 : UInt8)).length := by omega
    rw [show i = a + (i - a) by omega, store_apply_of_mem _ _ _ hmem, List.getElem_replicate]

/-! ## Copies -/

/-- The `len` bytes at address `a`. -/
def slice (m : ByteMem) (a len : ℕ) : List UInt8 := (List.range len).map fun i => m (a + i)

@[simp] theorem length_slice (m : ByteMem) (a len : ℕ) : (slice m a len).length = len := by
  simp [slice]

theorem store_slice_apply (m src : ByteMem) (a b : ℕ) {len i : ℕ} (h : i < len) :
    store m a (slice src b len) (a + i) = src (b + i) := by
  have hi : i < (slice src b len).length := by rwa [length_slice]
  rw [store_apply_of_mem m a _ hi]
  simp [slice]

/-- Loading inside a copied block gives what the source has there. -/
theorem load_store_slice (m src : ByteMem) (a b : ℕ) {len k w : ℕ} (h : k + w ≤ len) :
    load (store m a (slice src b len)) (a + k) w = load src (b + k) w := by
  induction w generalizing k with
  | zero => rfl
  | succ w ih =>
      rw [load, load, store_slice_apply m src a b (by omega), Nat.add_assoc a, Nat.add_assoc b,
        ih (by omega)]

/-! ## Word tables -/

theorem storeWords_apply_of_not_mem (m : ByteMem) (a : ℕ) (ws : List ℕ) {i : ℕ}
    (h : i < a ∨ a + 4 * ws.length ≤ i) : storeWords m a ws i = m i := by
  induction ws generalizing a with
  | nil => rfl
  | cons v ws ih =>
      rw [List.length_cons] at h
      rw [storeWords, store_apply_of_not_mem _ _ _ (by rw [length_toBytes]; omega),
        ih (a + 4) (by omega)]

theorem load_storeWords_of_disjoint (m : ByteMem) (a : ℕ) (ws : List ℕ) {c w : ℕ}
    (h : c + w ≤ a ∨ a + 4 * ws.length ≤ c) : load (storeWords m a ws) c w = load m c w :=
  load_congr fun _ _ _ => storeWords_apply_of_not_mem m a ws (by omega)

/-- Entry `k` of a table written word by word is the `k`-th word. -/
theorem load32_storeWords (m : ByteMem) (a : ℕ) (ws : List ℕ) {k : ℕ} (hk : k < ws.length) :
    load32 (storeWords m a ws) (a + 4 * k) = ws[k] % 2 ^ 32 := by
  induction ws generalizing a k with
  | nil => simp at hk
  | cons v ws ih =>
      cases k with
      | zero => exact load_store_toBytes _ a 4 v
      | succ k =>
          rw [List.length_cons] at hk
          rw [storeWords, load32_store_of_disjoint _ _ _ (by rw [length_toBytes]; omega),
            show a + 4 * (k + 1) = a + 4 + 4 * k by omega, ih (a + 4) (by omega)]
          rfl

/-- The byte image of a word table. -/
def wordsToBytes (ws : List ℕ) : List UInt8 := ws.flatMap (toBytes 4)

theorem length_wordsToBytes (ws : List ℕ) : (wordsToBytes ws).length = 4 * ws.length := by
  induction ws with
  | nil => rfl
  | cons v ws ih =>
      rw [wordsToBytes, List.flatMap_cons, List.length_append, length_toBytes, List.length_cons]
      rw [wordsToBytes] at ih
      omega

theorem store_wordsToBytes (m : ByteMem) (a : ℕ) (ws : List ℕ) :
    store m a (wordsToBytes ws) = storeWords m a ws := by
  induction ws generalizing a with
  | nil => rfl
  | cons v ws ih =>
      rw [wordsToBytes, List.flatMap_cons, store_append, length_toBytes, storeWords]
      exact congrArg (fun m' => store m' a (toBytes 4 v)) (ih (a + 4))

end ByteMem
