import SchedPass.Lib.Numerals
import SchedPass.Lib.RunSearch

set_option autoImplicit false

/-! # The kernel behind a host stub (`SchedPlane.r_for_cached_so.devname`)

The host stub of a kernel `X` is the function `__device_stub__X`, and in its mangled name the length ahead of
`X` counts the 15 characters of that mark. `devname` takes the digits ahead of the first mark for the length.
They are the length's digits alone only where nothing ahead of them ends in a digit, so the name is not found
for a kernel in `_GLOBAL__N_1`, say (`devname_recovers_iff`). -/

namespace SchedPass

/-! ## The code -/

def deviceStub : List Char := "__device_stub__".toList

/-- `devname`; `none` when `int` raises. -/
def devname (py : PyDigits) (stub : String) : Option String :=
  -- `re.search(r"(\d+)__device_stub__", stub)`
  match searchRun py.isDecimal deviceStub stub.toList with
  | none => some stub
  | some (pre, run, post) =>
      (py.int run).map fun n : ℕ => String.ofList (pre ++ (formatInt 10 ((n : ℤ) - 15) ++ post))

/-! ## Nested names -/

/-- An identifier: some text that does not start with a digit. -/
structure Identifier (py : PyDigits) where
  text : String
  text_ne : text.toList ≠ []
  start : ∀ c ∈ text.toList.head?, py.isDecimal c = false

section

variable {py : PyDigits}

namespace Identifier

/-- The name of the stub. -/
def stub (x : Identifier py) : Identifier py where
  text := "__device_stub__" ++ x.text
  text_ne := by
    rw [String.toList_append]
    exact List.append_ne_nil_of_left_ne_nil (by decide) _
  start := by
    intro c hc
    rw [String.toList_append] at hc
    cases hc
    rw [PyDigits.isDecimal_ascii (by decide)]
    rfl

/-- Itanium's `<source-name>`: the length in bytes and the identifier. -/
def sourceName (x : Identifier py) : List Char := Nat.toDigits 10 x.text.utf8ByteSize ++ x.text.toList

end Identifier

/-- A mangled name: `_ZN`, the components of the nested name, and all that the encoding has behind them. -/
def mangle (components : List (Identifier py)) (suffix : List Char) : String :=
  String.ofList ("_ZN".toList ++ (components.flatMap Identifier.sourceName ++ suffix))

/-- The digits that the innermost enclosing name ends in. -/
def scopeDigits (scope : List (Identifier py)) : List Char :=
  match scope.getLast? with
  | some y => y.text.toList.rtakeWhile py.isDecimal
  | none => []

/-- The scopes and the name that `devname` finds the way through: no enclosing name has the mark at its start
    or behind a digit; the digits ahead of the mark are few enough for `int`; and where the innermost one ends
    in digits, these are a numeral as Python writes it and the length keeps its number of digits. -/
structure Recoverable (scope : List (Identifier py)) (x : Identifier py) : Prop where
  unmarked : ∀ y ∈ scope, ¬deviceStub <+: y.text.toList ∧ ¬Marked py.isDecimal deviceStub y.text.toList
  fits : py.Fits ((scopeDigits scope).length + (Nat.toDigits 10 (15 + x.text.utf8ByteSize)).length)
  digits : scopeDigits scope = [] ∨
    (∀ c ∈ scopeDigits scope, c.isDigit = true) ∧ (scopeDigits scope).head? ≠ some '0' ∧
      (Nat.toDigits 10 x.text.utf8ByteSize).length = (Nat.toDigits 10 (15 + x.text.utf8ByteSize)).length

/-! ## The text ahead of the kernel's name -/

theorem deviceStub_no_decimal : ∀ c ∈ deviceStub, py.isDecimal c = false :=
  PyDigits.isDecimal_eq_false_of_all (by decide)

theorem deviceStub_ne_nil : deviceStub ≠ [] := by decide

def scopeText (scope : List (Identifier py)) : List Char := "_ZN".toList ++ scope.flatMap Identifier.sourceName

theorem toList_mangle (scope : List (Identifier py)) (x : Identifier py) (suffix : List Char) :
    (mangle (scope ++ [x]) suffix).toList = scopeText scope ++ (x.sourceName ++ suffix) := by
  have htext : (mangle (scope ++ [x]) suffix).toList
      = "_ZN".toList ++ ((scope ++ [x]).flatMap Identifier.sourceName ++ suffix) := String.toList_ofList
  rw [htext, List.flatMap_append, List.flatMap_singleton, List.append_assoc, scopeText, List.append_assoc]

/-- The mark makes a name 15 bytes longer. -/
theorem Identifier.size_stub (x : Identifier py) : x.stub.text.utf8ByteSize = 15 + x.text.utf8ByteSize := by
  have htext : x.stub.text = "__device_stub__" ++ x.text := rfl
  have hmark : "__device_stub__".utf8ByteSize = 15 := by decide
  rw [htext, String.utf8ByteSize_append, hmark]

theorem Identifier.toList_stub (x : Identifier py) : x.stub.text.toList = deviceStub ++ x.text.toList :=
  String.toList_append

theorem toList_mangle_stub (scope : List (Identifier py)) (x : Identifier py) (suffix : List Char) :
    (mangle (scope ++ [x.stub]) suffix).toList
      = scopeText scope
        ++ (Nat.toDigits 10 (15 + x.text.utf8ByteSize) ++ (deviceStub ++ (x.text.toList ++ suffix))) := by
  rw [toList_mangle, Identifier.sourceName, Identifier.size_stub, Identifier.toList_stub, List.append_assoc,
    List.append_assoc]

/-- A further component starts with a digit. -/
theorem head_sourceNames (scope : List (Identifier py)) :
    ∀ c ∈ (scope.flatMap Identifier.sourceName).head?, py.isDecimal c = true := by
  cases scope with
  | nil => simp
  | cons y scope =>
      rw [List.flatMap_cons, Identifier.sourceName, List.append_assoc]
      exact forall_head_append Nat.toDigits_ne_nil (PyDigits.all_isDecimal_toDigits _) _

/-- **The mark is ahead** where an enclosing name starts with it or has it behind a digit. -/
theorem marked_scopeText_iff (scope : List (Identifier py)) :
    Marked py.isDecimal deviceStub (scopeText scope) ↔
      ∃ y ∈ scope, deviceStub <+: y.text.toList ∨ Marked py.isDecimal deviceStub y.text.toList := by
  have hprefix : ∀ c ∈ "_ZN".toList, py.isDecimal c = false := PyDigits.isDecimal_eq_false_of_all (by decide)
  rw [scopeText, marked_append_iff deviceStub_no_decimal (head_sourceNames scope),
    or_iff_right (not_marked_of_forall hprefix)]
  induction scope with
  | nil => simp [not_marked_nil]
  | cons y scope ih =>
      rw [List.flatMap_cons, marked_append_iff deviceStub_no_decimal (head_sourceNames scope),
        or_congr_right ih, Identifier.sourceName,
        marked_run_append_iff deviceStub_no_decimal deviceStub_ne_nil Nat.toDigits_ne_nil
          (PyDigits.all_isDecimal_toDigits _)]
      simp only [List.mem_cons, exists_eq_or_imp]

theorem rtakeWhile_scopeText (scope : List (Identifier py)) :
    (scopeText scope).rtakeWhile py.isDecimal = scopeDigits scope := by
  rcases List.eq_nil_or_concat scope with rfl | ⟨scope, y, rfl⟩
  · have hlast : ¬py.isDecimal 'N' = true := by
      rw [PyDigits.isDecimal_ascii (by decide)]
      decide
    exact List.rtakeWhile_concat_neg py.isDecimal ['_', 'Z'] 'N' hlast
  · rw [List.concat_eq_append]
    have hsplit : scopeText (scope ++ [y])
        = (scopeText scope ++ Nat.toDigits 10 y.text.utf8ByteSize) ++ y.text.toList := by
      simp [scopeText, Identifier.sourceName]
    obtain ⟨c, cs, hy⟩ := List.exists_cons_of_ne_nil y.text_ne
    have hstart : ∃ c ∈ y.text.toList, py.isDecimal c = false :=
      ⟨c, by simp [hy], y.start c (by simp [hy])⟩
    rw [hsplit, rtakeWhile_append hstart]
    simp [scopeDigits]

theorem rdropWhile_append_scopeDigits (scope : List (Identifier py)) :
    (scopeText scope).rdropWhile py.isDecimal ++ scopeDigits scope = scopeText scope := by
  rw [← rtakeWhile_scopeText, List.rdropWhile_append_rtakeWhile]

theorem isDecimal_run (scope : List (Identifier py)) (n : ℕ) :
    ∀ c ∈ scopeDigits scope ++ Nat.toDigits 10 n, py.isDecimal c = true := by
  intro c hc
  rcases List.mem_append.1 hc with hc | hc
  · rw [← rtakeWhile_scopeText] at hc
    exact List.mem_rtakeWhile_imp hc
  · exact PyDigits.all_isDecimal_toDigits n c hc

/-! ## The name that is found -/

/-- A numeral behind other digits is given back. -/
theorem toDigits_value_iff (digits : List Char) (k n : ℕ) :
    Nat.toDigits 10 (py.value digits * 10 ^ k + n) = digits ++ Nat.toDigits 10 n ↔
      digits = [] ∨ (∀ c ∈ digits, c.isDigit = true) ∧ digits.head? ≠ some '0' ∧
        (Nat.toDigits 10 n).length = k := by
  by_cases hdigits : digits = []
  · simp [hdigits, PyDigits.value]
  · rw [or_iff_right hdigits, toDigits_shift_iff py hdigits]

theorem int_scopeDigits (scope : List (Identifier py)) (n : ℕ) :
    py.int (scopeDigits scope ++ Nat.toDigits 10 n) =
      if py.Fits (scopeDigits scope ++ Nat.toDigits 10 n).length then
        some (py.value (scopeDigits scope) * 10 ^ (Nat.toDigits 10 n).length + n) else none := by
  rw [PyDigits.int_of_decimal (List.append_ne_nil_of_right_ne_nil _ Nat.toDigits_ne_nil) (isDecimal_run scope n),
    PyDigits.value_append, PyDigits.value_toDigits]

theorem formatInt_shifted (a n : ℕ) : formatInt 10 ((a + (15 + n) : ℕ) - 15) = Nat.toDigits 10 (a + n) := by
  have hsub : ((a + (15 + n) : ℕ) : ℤ) - 15 = (a + n : ℕ) := by omega
  rw [hsub]
  rfl

theorem ofList_eq_mangle_iff {scope : List (Identifier py)} {x : Identifier py} {number suffix : List Char} :
    String.ofList ((scopeText scope).rdropWhile py.isDecimal ++ (number ++ (x.text.toList ++ suffix)))
        = mangle (scope ++ [x]) suffix ↔
      number = scopeDigits scope ++ Nat.toDigits 10 x.text.utf8ByteSize := by
  have hscope := rdropWhile_append_scopeDigits scope
  rw [← String.toList_inj, String.toList_ofList, toList_mangle]
  nth_rewrite 2 [← hscope]
  rw [List.append_assoc, List.append_right_inj, Identifier.sourceName, List.append_assoc,
    ← List.append_assoc (scopeDigits scope), List.append_left_inj]

/-- With the mark ahead, what is found still has the mark ahead of the kernel's name. -/
theorem devname_ne_of_marked {scope : List (Identifier py)} (x : Identifier py) (suffix : List Char)
    (h : Marked py.isDecimal deviceStub (scopeText scope)) :
    devname py (mangle (scope ++ [x.stub]) suffix) ≠ some (mangle (scope ++ [x]) suffix) := by
  obtain ⟨pre, run, post, hfound, u, rfl⟩ := searchRun_of_marked deviceStub_no_decimal deviceStub_ne_nil h
    (Nat.toDigits 10 (15 + x.text.utf8ByteSize) ++ (deviceStub ++ (x.text.toList ++ suffix)))
  rw [devname, toList_mangle_stub, hfound]
  intro heq
  obtain ⟨n, -, hname⟩ := Option.map_eq_some_iff.1 heq
  have hlist := congrArg String.toList hname
  rw [String.toList_ofList, toList_mangle, Identifier.sourceName] at hlist
  simp only [← List.append_assoc] at hlist
  have hends := congrArg List.getLast? (List.append_cancel_right (List.append_cancel_right hlist))
  rw [List.getLast?_append_of_ne_nil _ deviceStub_ne_nil, List.getLast?_append_of_ne_nil _ Nat.toDigits_ne_nil]
    at hends
  exact Nat.underscore_not_in_toDigits (List.mem_of_getLast? hends.symm)

/-- With no mark ahead, the digits ahead of the kernel's mark are the scope's and the length's. -/
theorem devname_of_not_marked {scope : List (Identifier py)} (x : Identifier py) (suffix : List Char)
    (h : ¬Marked py.isDecimal deviceStub (scopeText scope)) :
    devname py (mangle (scope ++ [x.stub]) suffix) =
      (py.int (scopeDigits scope ++ Nat.toDigits 10 (15 + x.text.utf8ByteSize))).map fun n : ℕ =>
        String.ofList ((scopeText scope).rdropWhile py.isDecimal
          ++ (formatInt 10 ((n : ℤ) - 15) ++ (x.text.toList ++ suffix))) := by
  have hfound := searchRun_of_not_marked deviceStub_no_decimal deviceStub_ne_nil (x.text.toList ++ suffix)
    (fun hne => by simpa using List.rdropWhile_last_not py.isDecimal (scopeText scope) hne)
    (List.append_ne_nil_of_right_ne_nil _ Nat.toDigits_ne_nil) (isDecimal_run scope (15 + x.text.utf8ByteSize))
    fun hpre => h (hpre.of_infix (List.rdropWhile_prefix py.isDecimal _).isInfix)
  rw [List.append_assoc, ← List.append_assoc (_ : List Char) (scopeDigits scope), rdropWhile_append_scopeDigits]
    at hfound
  rw [devname, toList_mangle_stub, hfound]

/-- **The kernel's name is found** exactly in these cases. -/
theorem devname_recovers_iff (scope : List (Identifier py)) (x : Identifier py) (suffix : List Char) :
    devname py (mangle (scope ++ [x.stub]) suffix) = some (mangle (scope ++ [x]) suffix) ↔
      Recoverable scope x := by
  by_cases hmarked : Marked py.isDecimal deviceStub (scopeText scope)
  · refine iff_of_false (devname_ne_of_marked x suffix hmarked) fun h => ?_
    obtain ⟨y, hy, hmark⟩ := (marked_scopeText_iff scope).1 hmarked
    exact hmark.elim (h.unmarked y hy).1 (h.unmarked y hy).2
  · have hunmarked : ∀ y ∈ scope, ¬deviceStub <+: y.text.toList ∧
        ¬Marked py.isDecimal deviceStub y.text.toList := by
      intro y hy
      rw [← not_or]
      exact fun hmark => hmarked ((marked_scopeText_iff scope).2 ⟨y, hy, hmark⟩)
    rw [devname_of_not_marked x suffix hmarked, int_scopeDigits, List.length_append]
    by_cases hfits : py.Fits ((scopeDigits scope).length + (Nat.toDigits 10 (15 + x.text.utf8ByteSize)).length)
    · rw [if_pos hfits, Option.map_some, formatInt_shifted, Option.some_inj, ofList_eq_mangle_iff,
        toDigits_value_iff]
      exact ⟨fun hdigits => ⟨hunmarked, hfits, hdigits⟩, fun h => h.digits⟩
    · rw [if_neg hfits]
      exact iff_of_false (by simp) fun h => hfits h.fits

end

/-! ## A kernel in an anonymous namespace -/

/-- The name that mangling gives an anonymous namespace. -/
def globalN1 : Identifier PyDigits.ascii := ⟨"_GLOBAL__N_1", by decide, by rintro _ ⟨⟩; rfl⟩

def foo : Identifier PyDigits.ascii := ⟨"Foo", by decide, by rintro _ ⟨⟩; rfl⟩

/-- `(anonymous namespace)::Foo()`: the digit of `N_1` is taken for the length's first, 118 less 15 is 103, and
    the name is not that of the kernel. -/
theorem devname_anonymous :
    mangle [globalN1, foo.stub] "Ev".toList = "_ZN12_GLOBAL__N_118__device_stub__FooEv" ∧
      devname PyDigits.ascii "_ZN12_GLOBAL__N_118__device_stub__FooEv" = some "_ZN12_GLOBAL__N_103FooEv" ∧
      mangle [globalN1, foo] "Ev".toList = "_ZN12_GLOBAL__N_13FooEv" ∧
      devname PyDigits.ascii (mangle [globalN1, foo.stub] "Ev".toList)
        ≠ some (mangle [globalN1, foo] "Ev".toList) := by
  decide

end SchedPass
