import SchedPass.Weave.Policy
import Mathlib.Data.List.Infix

set_option autoImplicit false

/-! # The compile-time configuration (`Config::fromEnv`)

The pass reads its configuration from the compiler's environment: some variables by presence alone,
some as numbers (`atoi`, `atof`, `strtoull` of the C locale), each with a default. -/

namespace SchedPass

open Float.Model (Format UnpackedFloat)

/-! ## Environments -/

/-- A process environment, or a Python `dict` made of one. -/
abbrev Env := String → Option String

/-- `env[k] = v`. -/
def Env.set (env : Env) (k v : String) : Env := Function.update env k (some v)

/-- `env.pop(k, None)`. -/
def Env.pop (env : Env) (k : String) : Env := Function.update env k none

/-- `getenv(k) != nullptr`. -/
def Env.present (env : Env) (k : String) : Bool := (env k).isSome

/-- Python's truth of `env.get(k)`: set, and not to the empty string. -/
def Env.truthy (env : Env) (k : String) : Bool :=
  match env k with
  | some v => v != ""
  | none => false

theorem Env.set_apply (env : Env) (k v j : String) :
    env.set k v j = if j = k then some v else env j := by
  rw [Env.set, Function.update_apply]

/-- What is present is truthy or empty. -/
theorem Env.present_eq (env : Env) (k : String) :
    env.present k = (env.truthy k || env k == some "") := by
  unfold Env.present Env.truthy
  rcases h : env k with _ | v
  · rfl
  · by_cases hv : v = "" <;> simp [hv]

/-! ## Numbers of the C library -/

namespace CNumber

/-- `isspace`. -/
def isSpace (c : Char) : Bool := c.toNat == 32 || (9 ≤ c.toNat && c.toNat ≤ 13)

def digitValue (c : Char) : ℕ :=
  if c.isDigit then c.toNat - 48 else if c.isLower then c.toNat - 87 else c.toNat - 55

def isHexDigit (c : Char) : Bool :=
  c.isDigit || (97 ≤ c.toNat && c.toNat ≤ 102) || (65 ≤ c.toNat && c.toNat ≤ 70)

/-- The number with the given digits. -/
def ofDigits (b : ℕ) (s : List Char) : ℕ := s.foldl (fun n c => b * n + digitValue c) 0

/-- A leading sign, and the rest. -/
def takeSign : List Char → Bool × List Char
  | '-' :: s => (true, s)
  | '+' :: s => (false, s)
  | s => (false, s)

/-- `strtol(v, NULL, 10)` of 64 bits. -/
def strtol (v : String) : ℤ :=
  let (neg, s) := takeSign (v.toList.dropWhile isSpace)
  let n : ℤ := ofDigits 10 (s.takeWhile Char.isDigit)
  if neg then max (-2 ^ 63) (-n) else min (2 ^ 63 - 1) n

/-- `atoi`: `strtol` cut to an `int`. -/
def atoi (v : String) : ℤ := Int.bmod (strtol v) (2 ^ 32)

/-- `strtoull(v, NULL, 10)`. -/
def strtoull (v : String) : ℕ :=
  let (neg, s) := takeSign (v.toList.dropWhile isSpace)
  let n := ofDigits 10 (s.takeWhile Char.isDigit)
  if n ≥ 2 ^ 64 then 2 ^ 64 - 1 else if neg then (2 ^ 64 - n) % 2 ^ 64 else n

/-- The digits of a numeral ahead of and behind its point, and the rest. -/
def takeFraction (isDigit : Char → Bool) (s : List Char) : List Char × List Char × List Char :=
  let (whole, s) := s.span isDigit
  match s with
  | '.' :: t =>
      let (frac, t) := t.span isDigit
      (whole, frac, t)
  | s => (whole, [], s)

/-- An exponent behind one of the marks, or 0. -/
def takeExponent (marks : List Char) (s : List Char) : ℤ :=
  match s with
  | [] => 0
  | c :: t =>
      if marks.contains c then
        let (neg, t) := takeSign t
        let e : ℤ := ofDigits 10 (t.takeWhile Char.isDigit)
        if neg then -e else e
      else
        0

/-- A positive numeral `m * 2 ^ e` as a double. -/
def ofBinary (m : ℕ) (e : ℤ) : Float.Model :=
  .pack (if m = 0 then .zero .positive else UnpackedFloat.round .binary64 .positive m e)

/-- The value of a numeral without its sign: an infinity, a NaN, a hexadecimal or a decimal one. -/
def unsigned (s : List Char) : Float.Model :=
  let lower := s.map Char.toLower
  if lower.take 3 = ['i', 'n', 'f'] then .pack (.infinity .positive)
  else if lower.take 3 = ['n', 'a', 'n'] then .pack .notANumber
  else
    let (whole, frac, rest) := takeFraction isHexDigit (s.drop 2)
    if lower.take 2 = ['0', 'x'] ∧ whole ++ frac ≠ [] then
      ofBinary (ofDigits 16 (whole ++ frac)) (takeExponent ['p', 'P'] rest - 4 * frac.length)
    else
      let (whole, frac, rest) := takeFraction Char.isDigit s
      .ofScientific (ofDigits 10 (whole ++ frac)) (takeExponent ['e', 'E'] rest - frac.length)

/-- `atof`. -/
def atof (v : String) : Float.Model :=
  let (neg, s) := takeSign (v.toList.dropWhile isSpace)
  if neg then -unsigned s else unsigned s

end CNumber

/-! ## The configuration -/

/-- `Config` with the baked addresses. -/
structure BakedConfig extends WeaveConfig where
  bakeOrder : ℕ := 0
  bakeCtrl : ℕ := 0
  bakeTimer : ℕ := 0
  bakeQueue : ℕ := 0
  deriving DecidableEq

def envInt (env : Env) (k : String) (dflt : ℤ) : ℤ :=
  match env k with
  | some v => CNumber.atoi v
  | none => dflt

def envF (env : Env) (k : String) (dflt : Float.Model) : Float.Model :=
  match env k with
  | some v => CNumber.atof v
  | none => dflt

def envAddr (env : Env) (k : String) : ℕ :=
  match env k with
  | some v => CNumber.strtoull v
  | none => 0

/-- `SCHED_MAX_TASKS` outside 1 to 2 ^ 20 is the default. -/
def envMaxTasks (env : Env) : ℕ :=
  let mt := envInt env "SCHED_MAX_TASKS" 4096
  if 0 < mt ∧ mt ≤ 2 ^ 20 then mt.toNat else 4096

/-- `SCHED_PF_DIST`, cast to unsigned. -/
def envPrefetchDist (env : Env) : ℕ := (envInt env "SCHED_PF_DIST" 8 % 2 ^ 32).toNat

/-- `Config::fromEnv`. -/
def Config.fromEnv (env : Env) : BakedConfig where
  slotAxis := envInt env "SCHED_SLOT_AXIS" 0
  maxTasks := envMaxTasks env
  indirect := !env.present "SCHED_NO_INDIRECT"
  timer := !env.present "SCHED_NO_TIMER"
  policy := !env.present "SCHED_NO_POLICY"
  shed := !env.present "SCHED_NO_SHED"
  clc := env.present "SCHED_CLC"
  timerIndirect := env.present "SCHED_TIMER_INDIRECT"
  orderIndirect := env.present "SCHED_ORDER_INDIRECT"
  pdl := env.present "SCHED_PDL"
  prefetchDist := envPrefetchDist env
  dT := envF env "SCHED_DT" (.ofNat 1)
  dR := envF env "SCHED_DR" (.ofNat 1)
  H := envF env "SCHED_H" (.ofScientific 25 (-2))
  debug := env.present "SCHED_DEBUG"
  bakeOrder := envAddr env "SCHED_BAKE_TASK_ORDER"
  bakeCtrl := envAddr env "SCHED_BAKE_CTRL"
  bakeTimer := envAddr env "SCHED_BAKE_TIMER"
  bakeQueue := envAddr env "SCHED_BAKE_QUEUE"

/-! ## The work-queue pass -/

/-- `StringRef::trim`. -/
def trimChars (s : List Char) : List Char :=
  ((s.dropWhile CNumber.isSpace).reverse.dropWhile CNumber.isSpace).reverse

/-- `nameSelected`: no filter, or one of its comma-separated parts occurs in the kernel's name. -/
def nameSelected (env : Env) (name : String) : Bool :=
  match env "SCHED_WQ_KERNELS" with
  | none => true
  | some filter =>
      if filter = "" then true
      else
        let parts := (filter.toList.splitOn ',').filter (· ≠ [])
        parts.any fun part => decide (trimChars part <:+: name.toList)

end SchedPass
