import SchedPass.Jit.BakedWindows
import SchedPass.Lib.Numerals

set_option autoImplicit false

/-! # The compiler shim's bake invariant (`nvcc_clang_shim.main`)

A kernel with baked addresses must only reach a cache that is keyed by their base. The shim looks for the tag of
`SCHED_BAKE_TASK_ORDER` in the workspace's path and removes the bake variables where it does not find it. An
environment of `compute_bake_env` passes (`bakeInvariant_computeBakeEnv`). But only one variable is checked,
where it is a numeral, and the tag is looked for as a substring: other variables get through on their own, and
so does a workspace whose tag only starts with the base's (`shim_bakes_keyed_iff`). -/

namespace SchedPass

/-! ## The code -/

/-- `k.startswith("SCHED_BAKE_")`. -/
def isBakeVar (k : String) : Bool := "SCHED_BAKE_".toList.isPrefixOf k.toList

/-- `f"va{n:x}"`. -/
def vaTag (n : ℤ) : List Char := 'v' :: 'a' :: formatInt 16 n

/-- The workspace's path, empty when it is not set. -/
def workspacePath (env : Env) : String := (env "FLASHINFER_WORKSPACE_BASE").getD ""

/-- The bake variables are removed. -/
def stripBakes (env : Env) : Env := fun k => if isBakeVar k then none else env k

def orderAddr (env : Env) : List Char := ((env "SCHED_BAKE_TASK_ORDER").getD "").toList

/-- The check of `main`; `none` when `int` raises. -/
def bakeInvariant (py : PyDigits) (env : Env) : Option Env :=
  if py.isdigit (orderAddr env) then
    (py.int (orderAddr env)).map fun n : ℕ =>
      if vaTag n <:+: (workspacePath env).toList then env else stripBakes env
  else some env

/-- How `main` ends, as far as the environment goes: with the version banner, with an exception, or with a
    compiler (clang, or the real nvcc) that is started in an environment. -/
inductive ShimRun
  | version
  | raised
  | compiles (env : Env)

/-- `main`. Behind the check the environment is only read. -/
def shimMain (py : PyDigits) (argv : List String) (env : Env) : ShimRun :=
  if "--version" ∈ argv.tail then .version
  else
    match bakeInvariant py env with
    | none => .raised
    | some env => .compiles env

/-! ## Keyed caches -/

def Table.bakeVar : Table → String
  | order => "SCHED_BAKE_TASK_ORDER"
  | ctrl => "SCHED_BAKE_CTRL"
  | timer => "SCHED_BAKE_TIMER"
  | queue => "SCHED_BAKE_QUEUE"

/-- No bake variable is set. -/
def NoBakes (env : Env) : Prop := ∀ k, isBakeVar k = true → env k = none

/-- The bake variables that are set are, as the pass reads them, the tables of an arena at the base. -/
def EncodesBase (env : Env) (base : ℕ) : Prop :=
  ∀ (t : Table) (v : String), env t.bakeVar = some v → CNumber.strtoull v = base + t.off

/-- The words of a path between its slashes and dashes. -/
def pathWords (path : String) : List (List Char) := (path.toList.splitOn '/').flatMap fun name => name.splitOn '-'

/-- The workspace has the base's tag as a word of its own. -/
def KeyedBy (env : Env) (base : ℕ) : Prop := vaTag base ∈ pathWords (workspacePath env)

instance (env : Env) (base : ℕ) : Decidable (KeyedBy env base) := inferInstanceAs (Decidable (_ ∈ _))

/-- If a bake variable is set, then all addresses are of one base, which the workspace is keyed by. -/
def BakesKeyed (env : Env) : Prop := NoBakes env ∨ ∃ base, EncodesBase env base ∧ KeyedBy env base

/-- The compiler that `main` starts, if any, bakes keyed addresses only. -/
def ShimRun.BakesKeyed : ShimRun → Prop
  | compiles env => SchedPass.BakesKeyed env
  | _ => True

/-! ## What the check lets through -/

/-- The order's address is a numeral, and `int` does not take it or the workspace lacks its tag. -/
def Stripped (py : PyDigits) (env : Env) : Prop :=
  py.isdigit (orderAddr env) = true ∧
    ∀ n ∈ py.int (orderAddr env), ¬vaTag n <:+: (workspacePath env).toList

theorem noBakes_stripBakes (env : Env) : NoBakes (stripBakes env) := fun _ hk => if_pos hk

/-- **The check by cases**: it raises or strips, or leaves the environment as it is. -/
theorem bakeInvariant_cases (py : PyDigits) (env : Env) :
    (Stripped py env ∧ (bakeInvariant py env = none ∨ bakeInvariant py env = some (stripBakes env))) ∨
      (¬Stripped py env ∧ bakeInvariant py env = some env) := by
  rw [bakeInvariant, Stripped]
  cases hdigit : py.isdigit (orderAddr env) with
  | false => exact .inr ⟨by simp, rfl⟩
  | true =>
      rw [if_pos rfl]
      cases hint : py.int (orderAddr env) with
      | none => exact .inl ⟨⟨rfl, by simp⟩, .inl rfl⟩
      | some n =>
          rw [Option.map_some]
          by_cases htag : vaTag n <:+: (workspacePath env).toList
          · exact .inr ⟨by simpa using htag, by rw [if_pos htag]⟩
          · exact .inl ⟨⟨rfl, by simpa using htag⟩, .inr (by rw [if_neg htag])⟩

theorem shimMain_bakesKeyed_iff (py : PyDigits) {argv : List String} (hversion : "--version" ∉ argv.tail)
    (env : Env) : (shimMain py argv env).BakesKeyed ↔ Stripped py env ∨ BakesKeyed env := by
  rw [shimMain, if_neg hversion]
  rcases bakeInvariant_cases py env with ⟨hstripped, hraised | hstrips⟩ | ⟨hkept, hsame⟩
  · rw [hraised]
    exact iff_of_true trivial (.inl hstripped)
  · rw [hstrips]
    exact iff_of_true (.inl (noBakes_stripBakes env)) (.inl hstripped)
  · rw [hsame, or_iff_right hkept]
    rfl

/-! ## The environments of `compute_bake_env` -/

section

variable {hexdigest : List UInt8 → String} {a : BakeArgs}

theorem computeBakeEnv_bakeVar (a : BakeArgs) (t : Table) :
    computeBakeEnv hexdigest a t.bakeVar = some (pyStr (a.base + t.off)) := by
  obtain ⟨horder, hctrl, htimer, hqueue⟩ := a.bake_env
  rw [computeBakeEnv_apply (by cases t <;> decide)]
  cases t with
  | order => exact horder
  | ctrl => exact hctrl
  | timer => exact htimer
  | queue => exact hqueue

/-- The words of the last component are words of the path. -/
theorem mem_pathWords_of_mem_pathTags {path : String} {w : List Char} (h : w ∈ pathTags path) :
    w ∈ pathWords path := by
  obtain ⟨name, hname⟩ : ∃ name, (path.toList.splitOn '/').getLast? = some name :=
    ⟨_, List.getLast?_eq_some_getLast (List.splitOn_ne_nil '/' path.toList)⟩
  rw [pathTags, hname, Option.getD_some] at h
  exact List.mem_flatMap.2 ⟨name, List.mem_of_getLast? hname, h⟩

theorem infix_of_mem_pathWords {path : String} {w : List Char} (h : w ∈ pathWords path) : w <:+: path.toList := by
  obtain ⟨name, hname, hw⟩ := List.mem_flatMap.1 h
  exact (infix_of_mem_splitOn hw).trans (infix_of_mem_splitOn hname)

/-- **The environment of `compute_bake_env` passes**: its addresses are of its base, which keys its workspace. -/
theorem bakeInvariant_computeBakeEnv (py : PyDigits)
    (hhex : ∀ c, ∀ x ∈ (hexdigest c).toList, ∃ d < 16, x = Nat.digitChar d) {base : ℕ} (hbase : a.base = base)
    (hmax : 0 ≤ a.maxTasks) (hfit : base + arenaBytes ≤ 2 ^ 64) :
    bakeInvariant py (computeBakeEnv hexdigest a) = some (computeBakeEnv hexdigest a) ∧
      EncodesBase (computeBakeEnv hexdigest a) base ∧ KeyedBy (computeBakeEnv hexdigest a) base := by
  have hkeyed : KeyedBy (computeBakeEnv hexdigest a) base := by
    have htag := BakeArgs.tagChar_key hhex a
    have hnonneg : 0 ≤ (a.key hexdigest).base := (Int.natCast_nonneg base).trans_eq hbase.symm
    have hwords : pathTags (workspacePath (computeBakeEnv hexdigest a))
        = vaTag base :: ('n' :: formatInt 10 a.maxTasks) :: (a.key hexdigest).parts := by
      rw [workspacePath, computeBakeEnv, Env.set_apply, if_pos rfl, Option.getD_some, BakeArgs.workspace_eq,
        pathTags_pathJoin (CacheKey.slash_notMem_name htag),
        CacheKey.splitOn_name hnonneg hmax htag, vaTag, ← hbase]
      rfl
    exact mem_pathWords_of_mem_pathTags (hwords ▸ List.mem_cons_self)
  have horder : orderAddr (computeBakeEnv hexdigest a) = Nat.toDigits 10 base := by
    have hset : computeBakeEnv hexdigest a "SCHED_BAKE_TASK_ORDER" = some (pyStr (a.base + orderOff)) :=
      computeBakeEnv_bakeVar a .order
    rw [orderAddr, hset, hbase]
    exact String.toList_ofList
  have hlt : base < 2 ^ 64 := by
    simp only [arenaBytes] at hfit
    omega
  refine ⟨?_, fun t v hv => ?_, hkeyed⟩
  · rw [bakeInvariant, horder, if_pos (PyDigits.isdigit_toDigits base), PyDigits.int_toDigits hlt,
      Option.map_some, if_pos (infix_of_mem_pathWords hkeyed)]
  · rw [computeBakeEnv_bakeVar, hbase, Option.some_inj] at hv
    have hoff := t.off_le
    simp only [windowBytes] at hoff
    rw [← hv]
    exact CNumber.strtoull_pyStr (n := base + t.off) (by omega)

end

/-! ## Exactly when baked addresses are keyed -/

/-- Where all variables are of the order's base, what can go wrong is that the tag is found, but as a part of
    other words only. -/
theorem shim_of_order (py : PyDigits) {argv : List String} (hversion : "--version" ∉ argv.tail) {env : Env}
    {n : ℕ} (hn : n < 2 ^ 64) (horder : env "SCHED_BAKE_TASK_ORDER" = some (pyStr n)) (hencodes : EncodesBase env n) :
    (shimMain py argv env).BakesKeyed ↔ (vaTag n <:+: (workspacePath env).toList → KeyedBy env n) := by
  have haddr : orderAddr env = Nat.toDigits 10 n := by
    rw [orderAddr, horder]
    exact String.toList_ofList
  have hstripped : Stripped py env ↔ ¬vaTag n <:+: (workspacePath env).toList := by
    rw [Stripped, haddr, PyDigits.int_toDigits hn, and_iff_right (PyDigits.isdigit_toDigits n)]
    simp
  have hkeyed : BakesKeyed env ↔ KeyedBy env n := by
    constructor
    · rintro (hnone | ⟨base, hbase, hkeyed⟩)
      · rw [hnone "SCHED_BAKE_TASK_ORDER" (by decide)] at horder
        cases horder
      · have hread := hbase .order (pyStr n) horder
        rw [CNumber.strtoull_pyStr hn] at hread
        rw [hread]
        exact hkeyed
    · exact fun hkeyed => .inr ⟨n, hencodes, hkeyed⟩
  rw [shimMain_bakesKeyed_iff py hversion, hstripped, hkeyed, ← imp_iff_not_or]

/-- **Baked addresses reach a keyed cache only** exactly where no bake variable is set, or the order's address
    is a numeral whose tag the workspace lacks, or the addresses are of one base and its tag is a word of the
    path. -/
theorem shim_bakes_keyed_iff (py : PyDigits) (argv : List String) (hversion : "--version" ∉ argv.tail)
    (env : Env) :
    (shimMain py argv env).BakesKeyed ↔
      NoBakes env ∨ Stripped py env ∨ ∃ base, EncodesBase env base ∧ KeyedBy env base := by
  rw [shimMain_bakesKeyed_iff py hversion, BakesKeyed, or_left_comm]

/-- A workspace that is keyed by a base in the middle of its path. -/
theorem shim_bakes_keyed_custom :
    (shimMain PyDigits.ascii ["nvcc", "-c", "k.cu"]
      (Env.set (Env.set (fun _ => none) "SCHED_BAKE_TASK_ORDER" "4096") "FLASHINFER_WORKSPACE_BASE"
        "/c/va1000-n8/w")).BakesKeyed := by
  refine (shim_bakes_keyed_iff PyDigits.ascii ["nvcc", "-c", "k.cu"] (by decide) _).2
    (.inr (.inr ⟨4096, ?_, ?_⟩))
  · intro t v hv
    cases t with
    | order => cases hv; decide
    | ctrl => cases hv
    | timer => cases hv
    | queue => cases hv
  · decide

/-- Only the control block is baked, and the workspace is not keyed. -/
def ctrlOnly : Env :=
  Env.set (Env.set (fun _ => none) "SCHED_BAKE_CTRL" "101155070017536") "FLASHINFER_WORKSPACE_BASE"
    "/tmp/not-keyed"

/-- The order table is baked at `0x5c000000000`, and the workspace is that of `0x5c0000000000`. -/
def longerKey : Env :=
  Env.set (Env.set (fun _ => none) "SCHED_BAKE_TASK_ORDER" "6322191859712") "FLASHINFER_WORKSPACE_BASE"
    "/c/va5c0000000000-n4096-wnone"

/-- **Neither is stripped**: without the order's address nothing is checked, and the tag of a shorter address
    is found in that of a longer one. -/
theorem shim_bakes_unkeyed :
    ¬(shimMain PyDigits.ascii ["nvcc", "-c", "k.cu"] ctrlOnly).BakesKeyed ∧
      ¬(shimMain PyDigits.ascii ["nvcc", "-c", "k.cu"] longerKey).BakesKeyed := by
  have hctrl : bakeInvariant PyDigits.ascii ctrlOnly = some ctrlOnly := by
    rw [bakeInvariant, if_neg (by decide)]
  have hlonger : bakeInvariant PyDigits.ascii longerKey = some longerKey := by
    have hint : PyDigits.ascii.int (orderAddr longerKey) = some 6322191859712 := by decide
    rw [bakeInvariant, if_pos (by decide), hint, Option.map_some, if_pos (by decide)]
  constructor
  · rw [shimMain, if_neg (by decide), hctrl]
    rintro (hnone | ⟨base, -, hkeyed⟩)
    · exact absurd (hnone "SCHED_BAKE_CTRL" (by decide)) (by decide)
    · have hwords : pathWords (workspacePath ctrlOnly)
          = ["".toList, "tmp".toList, "not".toList, "keyed".toList] := by decide
      rw [KeyedBy, hwords] at hkeyed
      simp [vaTag] at hkeyed
  · rw [shimMain, if_neg (by decide), hlonger]
    rintro (hnone | ⟨base, hencodes, hkeyed⟩)
    · exact absurd (hnone "SCHED_BAKE_TASK_ORDER" (by decide)) (by decide)
    · have hbase : 6322191859712 = base := hencodes .order "6322191859712" (by decide)
      rw [← hbase] at hkeyed
      exact absurd hkeyed (by decide)

end SchedPass
