import SchedPass.Jit.CacheKey
import SchedPass.Lib.Numerals

set_option autoImplicit false

/-! # The compiler shim's translation (`nvcc_clang_shim.translate`)

The shim turns a command line for nvcc into one for clang, in one pass over the arguments that sometimes takes
two of them along. A command line is a list of options, each in one of its spellings, and perhaps one option at
the end that lacks its value. Every command line can be read so, and however it is read, the translation is
that of its options, one after the other (`translate_reads`). -/

namespace SchedPass

/-! ## The code -/

/-- `a.startswith(p)`. -/
def startsWith (p a : String) : Bool := p.toList.isPrefixOf a.toList

/-- `a.split("=", 1)[1]`. -/
def afterEquals (a : String) : String := String.ofList ((a.toList.dropWhile (· != '=')).drop 1)

/-- `[A-Za-z0-9_]`. -/
def isWordChar (c : Char) : Bool := c.isAlphanum || c == '_'

/-- The group of `re.search(r",code=([A-Za-z0-9_]+)", a)`. -/
def codeTarget : List Char → Option (List Char)
  | [] => none
  | c :: s =>
      if ",code=".toList.isPrefixOf (c :: s) && ((c :: s).drop 6).head?.any isWordChar then
        some (((c :: s).drop 6).takeWhile isWordChar)
      else codeTarget s

/-- The group of `re.match(r"(sm_\d+)", s)`. -/
def smPrefix (py : PyDigits) (s : List Char) : Option (List Char) :=
  if "sm_".toList.isPrefixOf s && (s.drop 3).head?.any py.isDecimal then
    some ("sm_".toList ++ (s.drop 3).takeWhile py.isDecimal)
  else none

/-- The groups of `re.search(r"cuda-(\d+)\.(\d+)", s)`. -/
def cudaVersion (py : PyDigits) : List Char → Option (List Char × List Char)
  | [] => none
  | c :: s =>
      let major := ((c :: s).drop 5).takeWhile py.isDecimal
      let rest := ((c :: s).drop 5).dropWhile py.isDecimal
      let minor := (rest.drop 1).takeWhile py.isDecimal
      if "cuda-".toList.isPrefixOf (c :: s) && major ≠ [] && rest.head? == some '.' && minor ≠ [] then
        some (major, minor)
      else cudaVersion py s

/-- The shim's settings, and what it finds on the disk. -/
structure Shim where
  py : PyDigits
  CLANG : String := "clang++-22"
  PLUGIN : String := ""
  CUDA_PATH : String := "/usr/local/cuda-12.9"
  PRELUDE : String
  /-- `SCHED_STRIP_ARCH` is not empty. -/
  stripArch : Bool := false
  /-- `os.path.isdir(inc)`. -/
  isdirInc : Bool
  /-- `os.path.exists(PRELUDE)`. -/
  existsPrelude : Bool

/-- What is done with an argument, and perhaps with the one behind it. -/
structure Taken where
  out : List String
  both : Bool := false
  std : Bool := false

/-- The flags that clang does not understand. -/
def nvccOnly : List String :=
  ["--expt-relaxed-constexpr", "--expt-extended-lambda", "-static-global-template-stub=false",
    "-static-global-template-stub=true", "--use_fast_math", "-use_fast_math",
    "-forward-unknown-to-host-compiler", "--generate-line-info", "-lineinfo"]

namespace Shim

variable (S : Shim)

def clang_arch (nvcc_code : String) : String :=
  if S.stripArch then
    match smPrefix S.py nvcc_code.toList with
    | some sm => String.ofList sm
    | none => nvcc_code
  else
    match smPrefix S.py nvcc_code.toList with
    | some sm =>
        -- `f$`, where the end may be ahead of a line break
        if nvcc_code.toList = sm ++ ['f'] ∨ nvcc_code.toList = sm ++ ['f', '\n'] then
          String.ofList (sm ++ ['a'])
        else nvcc_code
    | none => nvcc_code

def gpuArch (code : String) : String := "--cuda-gpu-arch=" ++ S.clang_arch code

/-- One turn of the loop: argument `a` with `next` behind it. -/
def translateArg (a : String) (next : Option String) : Taken :=
  let value := next.getD ""
  if startsWith "-gencode=" a then
    match codeTarget a.toList with
    | some code => { out := [S.gpuArch (String.ofList code)] }
    | none => { out := [] }
  else if a = "-arch" ∧ next.isSome then { out := [S.gpuArch value], both := true }
  else if startsWith "--compiler-options=" a then { out := [afterEquals a] }
  else if (a = "-Xcompiler" ∨ a = "--compiler-options") ∧ next.isSome then
    { out := [value], both := true }
  else if startsWith "-Xfatbin" a ∨ startsWith "--fatbin-options" a then
    { out := [], both := (a = "-Xfatbin" ∨ a = "--fatbin-options") ∧ next.isSome }
  else if a = "-Xptxas" ∧ next.isSome then { out := ["-Xcuda-ptxas", value], both := true }
  else if startsWith "-Xptxas=" a then { out := ["-Xcuda-ptxas", afterEquals a] }
  else if a = "--generate-dependencies-with-compile" then { out := [] }
  else if a = "--dependency-output" ∧ next.isSome then { out := ["-MMD", "-MF", value], both := true }
  else if a ∈ nvccOnly then { out := [] }
  else if startsWith "--threads" a ∨ startsWith "-static-global-template-stub" a then
    { out := [], both := a = "--threads" ∧ next.isSome }
  else if a = "-ccbin" ∧ next.isSome then { out := [], both := true }
  else if startsWith "-ccbin=" a then { out := [] }
  else { out := [a], std := startsWith "-std=" a }

/-- The loop: what is put out, and whether a language standard is among it. -/
def translateArgs : List String → List String × Bool
  | [] => ([], false)
  | [a] => ((S.translateArg a none).out, (S.translateArg a none).std)
  | a :: b :: rest =>
      let t := S.translateArg a (some b)
      let (out, std) := if t.both then translateArgs rest else translateArgs (b :: rest)
      (t.out ++ out, t.std || std)

/-- What comes ahead of the arguments. -/
def leading (weave : Bool) : List String :=
  let (maj, mnr) := (cudaVersion S.py S.CUDA_PATH.toList).getD (['1', '2'], ['0'])
  [S.CLANG, "-x", "cuda", "--cuda-path=" ++ S.CUDA_PATH, "-Wno-unknown-cuda-version"] ++
  (if S.isdirInc then ["-isystem", pathJoin S.CUDA_PATH "include"] else []) ++
  (if S.existsPrelude then ["-include", S.PRELUDE] else []) ++
  ["-D__CUDACC_VER_MAJOR__=" ++ String.ofList maj, "-D__CUDACC_VER_MINOR__=" ++ String.ofList mnr,
    "-D__CUDACC_VER_BUILD__=0"] ++
  (if S.PLUGIN ≠ "" ∧ weave then ["-fpass-plugin=" ++ S.PLUGIN] else [])

def translate (argv : List String) (weave : Bool) : List String :=
  let (out, have_std) := S.translateArgs argv
  S.leading weave ++ out ++ (if have_std then [] else ["-std=c++17"]) ++ ["-fPIC"]

end Shim

/-! ## Options -/

/-- What an option of a command line asks for. -/
inductive NvccOption
  /-- Code for a target. -/
  | gpuCode (code : String)
  /-- A flag for the host compiler. -/
  | hostFlag (flag : String)
  /-- A flag for the assembler. -/
  | ptxasFlag (flag : String)
  /-- The file that the dependencies go to. -/
  | dependencyFile (file : String)
  /-- What clang has no flag for. -/
  | nothing
  /-- Anything else. -/
  | other (a : String)

/-- The option for clang. -/
def NvccOption.clang (S : Shim) : NvccOption → List String
  | gpuCode code => [S.gpuArch code]
  | hostFlag flag => [flag]
  | ptxasFlag flag => ["-Xcuda-ptxas", flag]
  | dependencyFile file => ["-MMD", "-MF", file]
  | nothing => []
  | other a => [a]

/-- The option sets the language standard. -/
def NvccOption.std : NvccOption → Bool
  | other a => startsWith "-std=" a
  | _ => false

/-- The names of the options that have a value of their own. -/
def valueNames : List String :=
  ["-arch", "-Xcompiler", "--compiler-options", "-Xfatbin", "--fatbin-options", "-Xptxas",
    "--dependency-output", "--threads", "-ccbin"]

/-- The ways an argument starts that is an option with its value. -/
def joinedPrefixes : List String :=
  ["-gencode=", "--compiler-options=", "-Xfatbin", "--fatbin-options", "-Xptxas=", "--threads",
    "-static-global-template-stub", "-ccbin="]

/-- The spellings of an option. -/
inductive Spells : NvccOption → List String → Prop
  | gencode {a : String} {code : List Char} (ha : startsWith "-gencode=" a = true)
      (hcode : codeTarget a.toList = some code) : Spells (.gpuCode (String.ofList code)) [a]
  | gencodeWithout {a : String} (ha : startsWith "-gencode=" a = true)
      (hcode : codeTarget a.toList = none) : Spells .nothing [a]
  | arch (code : String) : Spells (.gpuCode code) ["-arch", code]
  | compilerOptionsJoined {a : String} (ha : startsWith "--compiler-options=" a = true) :
      Spells (.hostFlag (afterEquals a)) [a]
  | compilerOptions (flag : String) : Spells (.hostFlag flag) ["--compiler-options", flag]
  | xcompiler (flag : String) : Spells (.hostFlag flag) ["-Xcompiler", flag]
  | xptxas (flag : String) : Spells (.ptxasFlag flag) ["-Xptxas", flag]
  | xptxasJoined {a : String} (ha : startsWith "-Xptxas=" a = true) :
      Spells (.ptxasFlag (afterEquals a)) [a]
  | dependencyOutput (file : String) : Spells (.dependencyFile file) ["--dependency-output", file]
  | withDependencies : Spells .nothing ["--generate-dependencies-with-compile"]
  | nvccOnly {a : String} (ha : a ∈ nvccOnly) : Spells .nothing [a]
  /-- A value that is dropped. -/
  | dropped {name : String} (value : String)
      (hname : name ∈ ["-Xfatbin", "--fatbin-options", "--threads", "-ccbin"]) :
      Spells .nothing [name, value]
  | droppedJoined {p a : String}
      (hp : p ∈ ["-Xfatbin", "--fatbin-options", "--threads", "-static-global-template-stub", "-ccbin="])
      (ha : startsWith p a = true) (hname : a ∉ valueNames) : Spells .nothing [a]
  | other {a : String} (hname : a ∉ valueNames) (hjoined : ∀ p ∈ joinedPrefixes, startsWith p a = false)
      (hnvcc : a ∉ SchedPass.nvccOnly) (hdeps : a ≠ "--generate-dependencies-with-compile") :
      Spells (.other a) [a]

/-- A command line read as options, with the name of one at the end perhaps that lacks its value. -/
structure Reads (argv : List String) (opts : List (NvccOption × List String)) (last : Option String) :
    Prop where
  spelled : ∀ p ∈ opts, Spells p.1 p.2
  name : ∀ a ∈ last, a ∈ valueNames
  argv_eq : argv = opts.flatMap Prod.snd ++ last.toList

/-- What becomes of a name without its value: `-Xfatbin`, `--fatbin-options` and `--threads` are dropped,
    any other name is kept, also `-ccbin`, which is dropped with its value. -/
def lastOut (a : String) : List String :=
  if a ∈ ["-Xfatbin", "--fatbin-options", "--threads"] then [] else [a]

/-! ## How the spellings differ -/

theorem startsWith_iff {p a : String} : startsWith p a = true ↔ p.toList <+: a.toList :=
  List.isPrefixOf_iff_prefix

/-- An argument does not start in two ways, unless one continues the other. -/
theorem startsWith_other {p a : String} (h : startsWith p a = true) (q : String)
    (hpq : startsWith p q = false) (hqp : startsWith q p = false) : startsWith q a = false := by
  by_contra hq
  simp only [Bool.not_eq_false] at hq
  rw [startsWith_iff] at h hq
  rcases List.prefix_or_prefix_of_prefix h hq with hle | hle
  · rw [← startsWith_iff] at hle
    simp [hle] at hpq
  · rw [← startsWith_iff] at hle
    simp [hle] at hqp

theorem ne_of_startsWith {p a : String} (h : startsWith p a = true) (b : String)
    (hb : startsWith p b = false) : a ≠ b := by
  rintro rfl
  simp [h] at hb

/-! ## One option -/

namespace Shim

variable (S : Shim)

theorem translateArgs_cons (a : String) (rest : List String) :
    S.translateArgs (a :: rest) =
      ((S.translateArg a rest.head?).out ++
        (S.translateArgs (if (S.translateArg a rest.head?).both then rest.tail else rest)).1,
      (S.translateArg a rest.head?).std ||
        (S.translateArgs (if (S.translateArg a rest.head?).both then rest.tail else rest)).2) := by
  cases rest with
  | nil => simp only [List.tail_nil, ite_self]; simp [translateArgs]
  | cons b rest =>
      cases hboth : (S.translateArg a (some b)).both <;> simp [translateArgs, hboth]

/-- An argument that is an option by itself. -/
theorem translateArgs_single {a : String} {o : NvccOption} (rest : List String)
    (h : ∀ next, S.translateArg a next = { out := o.clang S, std := o.std }) :
    S.translateArgs ([a] ++ rest) =
      (o.clang S ++ (S.translateArgs rest).1, o.std || (S.translateArgs rest).2) := by
  rw [List.singleton_append, translateArgs_cons, h]
  simp

/-- An argument that takes the next one along. -/
theorem translateArgs_pair {a v : String} {o : NvccOption} (rest : List String)
    (h : S.translateArg a (some v) = { out := o.clang S, both := true, std := o.std }) :
    S.translateArgs ([a, v] ++ rest) =
      (o.clang S ++ (S.translateArgs rest).1, o.std || (S.translateArgs rest).2) := by
  rw [List.cons_append, List.singleton_append, translateArgs_cons, List.head?_cons, h]
  simp

theorem translateArg_dropped {name : String} (v : String)
    (hname : name ∈ ["-Xfatbin", "--fatbin-options", "--threads", "-ccbin"]) :
    S.translateArg name (some v) = { out := [], both := true } := by
  simp only [List.mem_cons, List.not_mem_nil, or_false] at hname
  rcases hname with rfl | rfl | rfl | rfl <;> simp [translateArg, startsWith, nvccOnly]

theorem translateArg_nvccOnly {a : String} (ha : a ∈ nvccOnly) (next : Option String) :
    S.translateArg a next = { out := [] } := by
  simp only [nvccOnly, List.mem_cons, List.not_mem_nil, or_false] at ha
  rcases ha with rfl | rfl | rfl | rfl | rfl | rfl | rfl | rfl | rfl <;> simp [translateArg, startsWith, nvccOnly]

theorem translateArg_gencode {a : String} (ha : startsWith "-gencode=" a = true) (next : Option String) :
    S.translateArg a next =
      { out := (codeTarget a.toList).elim [] fun code => [S.gpuArch (String.ofList code)] } := by
  rw [translateArg, if_pos ha]
  cases codeTarget a.toList <;> rfl

theorem translateArg_compilerOptions {a : String} (ha : startsWith "--compiler-options=" a = true)
    (next : Option String) : S.translateArg a next = { out := [afterEquals a] } := by
  have hgencode := startsWith_other ha "-gencode=" rfl rfl
  have harch := ne_of_startsWith ha "-arch" rfl
  simp [translateArg, ha, hgencode, harch]

theorem translateArg_xptxasJoined {a : String} (ha : startsWith "-Xptxas=" a = true)
    (next : Option String) : S.translateArg a next = { out := ["-Xcuda-ptxas", afterEquals a] } := by
  have hgencode := startsWith_other ha "-gencode=" rfl rfl
  have hhost := startsWith_other ha "--compiler-options=" rfl rfl
  have hfatbin := startsWith_other ha "-Xfatbin" rfl rfl
  have hfatbin' := startsWith_other ha "--fatbin-options" rfl rfl
  have hne := ne_of_startsWith ha
  simp [translateArg, ha, hgencode, hhost, hfatbin, hfatbin', hne "-arch" rfl, hne "-Xcompiler" rfl,
    hne "--compiler-options" rfl, hne "-Xptxas" rfl]

/-- An argument that is not the name of an option with a value of its own is an option by itself, whatever is
behind it. -/
theorem translateArg_of_not_name {a : String} (ha : a ∉ valueNames) (next : Option String) :
    S.translateArg a next =
      if startsWith "-gencode=" a then
        { out := (codeTarget a.toList).elim [] fun code => [S.gpuArch (String.ofList code)] }
      else if startsWith "--compiler-options=" a then { out := [afterEquals a] }
      else if startsWith "-Xptxas=" a then { out := ["-Xcuda-ptxas", afterEquals a] }
      else if (∃ p ∈ joinedPrefixes, startsWith p a) ∨ a ∈ nvccOnly ∨
          a = "--generate-dependencies-with-compile" then { out := [] }
      else { out := [a], std := startsWith "-std=" a } := by
  simp only [valueNames, List.mem_cons, List.not_mem_nil, or_false, not_or] at ha
  obtain ⟨harch, hxcompiler, hcompiler, hxfatbin, hfatbin, hxptxas, hdeps, hthreads, hccbin⟩ := ha
  by_cases hgencode : startsWith "-gencode=" a = true
  · rw [if_pos hgencode, S.translateArg_gencode hgencode]
  by_cases hhost : startsWith "--compiler-options=" a = true
  · rw [if_neg hgencode, if_pos hhost, S.translateArg_compilerOptions hhost]
  by_cases hptxas : startsWith "-Xptxas=" a = true
  · rw [if_neg hgencode, if_neg hhost, if_pos hptxas, S.translateArg_xptxasJoined hptxas]
  simp only [translateArg, joinedPrefixes, List.mem_cons, List.not_mem_nil, or_false, exists_eq_or_imp,
    exists_eq_left, hgencode, harch, hhost, hxcompiler, hcompiler, hxfatbin, hfatbin, hxptxas, hptxas, hdeps,
    hthreads, hccbin, false_and, or_self, if_false]
  grind

theorem translateArgs_last {a : String} (ha : a ∈ valueNames) : S.translateArgs [a] = (lastOut a, false) := by
  simp only [valueNames, List.mem_cons, List.not_mem_nil, or_false] at ha
  rcases ha with rfl | rfl | rfl | rfl | rfl | rfl | rfl | rfl | rfl <;>
    simp [translateArgs, translateArg, startsWith, nvccOnly, lastOut, List.isPrefixOf]

/-- An option, however it is spelled, becomes its flags for clang. -/
theorem translateArgs_spelled {o : NvccOption} {ws : List String} (h : Spells o ws) (rest : List String) :
    S.translateArgs (ws ++ rest) =
      (o.clang S ++ (S.translateArgs rest).1, o.std || (S.translateArgs rest).2) := by
  cases h with
  | gencode ha hcode =>
      refine S.translateArgs_single rest fun next => ?_
      rw [S.translateArg_gencode ha, hcode]
      rfl
  | gencodeWithout ha hcode =>
      refine S.translateArgs_single rest fun next => ?_
      rw [S.translateArg_gencode ha, hcode]
      rfl
  | arch code =>
      exact S.translateArgs_pair rest (by simp [translateArg, startsWith, NvccOption.clang, NvccOption.std])
  | compilerOptionsJoined ha =>
      exact S.translateArgs_single rest fun next => S.translateArg_compilerOptions ha next
  | compilerOptions flag =>
      exact S.translateArgs_pair rest (by simp [translateArg, startsWith, NvccOption.clang, NvccOption.std])
  | xcompiler flag =>
      exact S.translateArgs_pair rest (by simp [translateArg, startsWith, NvccOption.clang, NvccOption.std])
  | xptxas flag =>
      exact S.translateArgs_pair rest (by simp [translateArg, startsWith, NvccOption.clang, NvccOption.std])
  | xptxasJoined ha => exact S.translateArgs_single rest fun next => S.translateArg_xptxasJoined ha next
  | dependencyOutput file =>
      exact S.translateArgs_pair rest (by simp [translateArg, startsWith, NvccOption.clang, NvccOption.std])
  | withDependencies =>
      exact S.translateArgs_single rest fun next => by
        simp [translateArg, startsWith, NvccOption.clang, NvccOption.std]
  | nvccOnly ha => exact S.translateArgs_single rest fun next => S.translateArg_nvccOnly ha next
  | dropped value hname => exact S.translateArgs_pair rest (S.translateArg_dropped value hname)
  | @droppedJoined p a hp ha hname =>
      refine S.translateArgs_single rest fun next => ?_
      have hother : startsWith "-gencode=" a = false ∧ startsWith "--compiler-options=" a = false ∧
          startsWith "-Xptxas=" a = false := by
        simp only [List.mem_cons, List.not_mem_nil, or_false] at hp
        rcases hp with rfl | rfl | rfl | rfl | rfl <;>
          exact ⟨startsWith_other ha _ rfl rfl, startsWith_other ha _ rfl rfl, startsWith_other ha _ rfl rfl⟩
      have hjoined : ∃ p ∈ joinedPrefixes, startsWith p a = true :=
        ⟨p, by
          simp only [List.mem_cons, List.not_mem_nil, or_false] at hp
          rcases hp with rfl | rfl | rfl | rfl | rfl <;> simp [joinedPrefixes], ha⟩
      rw [S.translateArg_of_not_name hname, hother.1, hother.2.1, hother.2.2]
      simp only [hjoined, true_or, if_true]
      rfl
  | other hname hjoined hnvcc hdeps =>
      refine S.translateArgs_single rest fun next => ?_
      rw [S.translateArg_of_not_name hname, hjoined "-gencode=" (by simp [joinedPrefixes]),
        hjoined "--compiler-options=" (by simp [joinedPrefixes]), hjoined "-Xptxas=" (by simp [joinedPrefixes])]
      simpa [hnvcc, hdeps, NvccOption.clang, NvccOption.std] using hjoined

end Shim

/-! ## Reading a command line -/

theorem exists_spells_pair {a : String} (ha : a ∈ valueNames) (v : String) : ∃ o, Spells o [a, v] := by
  simp only [valueNames, List.mem_cons, List.not_mem_nil, or_false] at ha
  rcases ha with rfl | rfl | rfl | rfl | rfl | rfl | rfl | rfl | rfl
  · exact ⟨_, .arch v⟩
  · exact ⟨_, .xcompiler v⟩
  · exact ⟨_, .compilerOptions v⟩
  · exact ⟨_, .dropped v (by simp)⟩
  · exact ⟨_, .dropped v (by simp)⟩
  · exact ⟨_, .xptxas v⟩
  · exact ⟨_, .dependencyOutput v⟩
  · exact ⟨_, .dropped v (by simp)⟩
  · exact ⟨_, .dropped v (by simp)⟩

theorem exists_spells_single {a : String} (ha : a ∉ valueNames) : ∃ o, Spells o [a] := by
  by_cases hjoined : ∃ p ∈ joinedPrefixes, startsWith p a = true
  · obtain ⟨p, hp, hpa⟩ := hjoined
    simp only [joinedPrefixes, List.mem_cons, List.not_mem_nil, or_false] at hp
    rcases hp with rfl | rfl | rfl | rfl | rfl | rfl | rfl | rfl
    · cases hcode : codeTarget a.toList with
      | none => exact ⟨_, .gencodeWithout hpa hcode⟩
      | some code => exact ⟨_, .gencode hpa hcode⟩
    · exact ⟨_, .compilerOptionsJoined hpa⟩
    · exact ⟨_, .droppedJoined (by simp) hpa ha⟩
    · exact ⟨_, .droppedJoined (by simp) hpa ha⟩
    · exact ⟨_, .xptxasJoined hpa⟩
    · exact ⟨_, .droppedJoined (by simp) hpa ha⟩
    · exact ⟨_, .droppedJoined (by simp) hpa ha⟩
    · exact ⟨_, .droppedJoined (by simp) hpa ha⟩
  · by_cases hnvcc : a ∈ nvccOnly
    · exact ⟨_, .nvccOnly hnvcc⟩
    by_cases hdeps : a = "--generate-dependencies-with-compile"
    · exact hdeps ▸ ⟨_, .withDependencies⟩
    · refine ⟨_, .other ha (fun p hp => ?_) hnvcc hdeps⟩
      simpa using fun hpa => hjoined ⟨p, hp, hpa⟩

theorem Reads.cons {argv ws : List String} {o : NvccOption} {opts : List (NvccOption × List String)}
    {last : Option String} (hws : Spells o ws) (h : Reads argv opts last) :
    Reads (ws ++ argv) ((o, ws) :: opts) last where
  spelled := List.forall_mem_cons.mpr ⟨hws, h.spelled⟩
  name := h.name
  argv_eq := by rw [h.argv_eq, List.flatMap_cons, List.append_assoc]

/-- Every command line has a reading. -/
theorem exists_reads (argv : List String) : ∃ opts last, Reads argv opts last := by
  -- an option takes one argument along or two
  induction argv using List.twoStepInduction with
  | nil => exact ⟨[], none, by simp, by simp, rfl⟩
  | singleton a =>
      by_cases ha : a ∈ valueNames
      · exact ⟨[], some a, by simp, by simpa using ha, rfl⟩
      · obtain ⟨o, ho⟩ := exists_spells_single ha
        exact ⟨[(o, [a])], none, by simpa using ho, by simp, by simp⟩
  | cons_cons a b rest ihrest ih =>
      by_cases ha : a ∈ valueNames
      · obtain ⟨o, ho⟩ := exists_spells_pair ha b
        obtain ⟨opts, last, hreads⟩ := ihrest
        exact ⟨_, last, hreads.cons ho⟩
      · obtain ⟨o, ho⟩ := exists_spells_single ha
        obtain ⟨opts, last, hreads⟩ := ih b
        exact ⟨_, last, hreads.cons ho⟩

namespace Shim

variable (S : Shim)

theorem translateArgs_reads (opts : List (NvccOption × List String)) (last : Option String)
    (hspelled : ∀ p ∈ opts, Spells p.1 p.2) (hname : ∀ a ∈ last, a ∈ valueNames) :
    S.translateArgs (opts.flatMap Prod.snd ++ last.toList) =
      (opts.flatMap (·.1.clang S) ++ last.elim [] lastOut, opts.any (·.1.std)) := by
  induction opts with
  | nil =>
      cases last with
      | none => rfl
      | some a => simpa using S.translateArgs_last (hname a rfl)
  | cons p opts ih =>
      rw [List.forall_mem_cons] at hspelled
      rw [List.flatMap_cons, List.append_assoc, S.translateArgs_spelled hspelled.1, ih hspelled.2]
      simp

/-- Every command line can be read as options, each in one of its spellings, with perhaps the name of one at the
end that lacks its value; and in whatever way it is read, the translation is that of its options one after the
other, with C++17 for the language unless an option says otherwise. -/
theorem translate_reads (argv : List String) (weave : Bool) :
    (∃ opts last, Reads argv opts last) ∧
      ∀ opts last, Reads argv opts last →
        S.translate argv weave =
          S.leading weave ++ (opts.flatMap (·.1.clang S) ++ last.elim [] lastOut) ++
            (if opts.any (·.1.std) then [] else ["-std=c++17"]) ++ ["-fPIC"] := by
  refine ⟨exists_reads argv, fun opts last h => ?_⟩
  rw [translate, h.argv_eq, S.translateArgs_reads opts last h.spelled h.name]

end Shim

end SchedPass
