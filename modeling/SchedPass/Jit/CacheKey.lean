import SchedPass.Jit.FromEnv
import SchedPass.Lib.Delimited
import SchedPass.Plane.SchedPlane

set_option autoImplicit false

/-! # The JIT cache key (`compute_bake_env`)

`compute_bake_env` gives the environment of a woven JIT compile and names the directory that the
compiled kernels are cached in. The name holds the base address, the table capacity, the work-queue
mode, the two channel layouts, the disabled levers and a tag of the plugin's content, and all of these
can be read back from it (`CacheKey.name_injective`). The pass reads more than that, and reads the
on/off variables by presence where the name goes by truth, so one directory can hold kernels woven for
different configurations (`cache_key_iff`). -/

namespace SchedPass

/-! ## The environment of a compile -/

/-- A capability's row in `MANIFEST`: its compile-time variable, and whether that one disables it. -/
structure ManifestRow where
  knob : String
  disable : Bool

/-- In the order in which the pass emits the capabilities. -/
def manifest : List ManifestRow :=
  [⟨"SCHED_WORKQUEUE", false⟩, ⟨"SCHED_NO_INDIRECT", true⟩, ⟨"SCHED_NO_SHED", true⟩,
    ⟨"SCHED_NO_POLICY", true⟩, ⟨"SCHED_NO_TIMER", true⟩, ⟨"SCHED_PDL", false⟩]

/-- `str(n)`. -/
def pyStr (n : ℤ) : String := String.ofList (formatInt 10 n)

/-- `f"{n:x}"`. -/
def pyHex (n : ℤ) : String := String.ofList (formatInt 16 n)

/-- `os.path.join(root, name)`. -/
def pathJoin (root name : String) : String :=
  if name.toList.head? = some '/' then name
  else if root = "" ∨ root.toList.getLast? = some '/' then root ++ name
  else root ++ "/" ++ name

/-- The arguments of `compute_bake_env`, with what it finds on its way: the content of the plugin file
    (`none` when it cannot be read) and the default cache root in the user's home. -/
structure BakeArgs where
  base : ℤ
  maxTasks : ℤ
  plugin : String
  content : Option (List UInt8)
  baseEnv : Env
  timerIndirect : Bool := false
  orderIndirect : Bool := false
  defaultRoot : String

/-- `_weave_tag`: the first eight characters of the content's digest. -/
def weaveTag (hexdigest : List UInt8 → String) : Option (List UInt8) → String
  | some content => String.ofList ((hexdigest content).toList.take 8)
  | none => "none"

/-- The mask letter of a disabling variable, `SCHED_NO_<WORD>`: its word's first. -/
def maskLetter (knob : String) : Option Char := (knob.toList.drop "SCHED_NO_".length).head?.map Char.toLower

/-- The letters of the disabled levers. -/
def leverMask (env : Env) : List Char :=
  (manifest.filter fun row => row.disable && env.truthy row.knob).filterMap fun row => maskLetter row.knob

namespace BakeArgs

/-- The compile environment short of the workspace. -/
def bakedEnv (a : BakeArgs) : Env :=
  let env := a.baseEnv
  let env := env.set "SCHED_PLUGIN" a.plugin
  let env := env.set "SCHED_BAKE_TASK_ORDER" (pyStr (a.base + orderOff))
  let env := env.set "SCHED_BAKE_CTRL" (pyStr (a.base + ctrlOff))
  let env := env.set "SCHED_BAKE_TIMER" (pyStr (a.base + timerOff))
  let env := env.set "SCHED_BAKE_QUEUE" (pyStr (a.base + queueOff))
  let env := env.set "SCHED_MAX_TASKS" (pyStr a.maxTasks)
  let env := if a.timerIndirect then env.set "SCHED_TIMER_INDIRECT" "1" else env
  if a.orderIndirect then env.set "SCHED_ORDER_INDIRECT" "1" else env

/-- The mode part of the workspace's name. -/
def mode (hexdigest : List UInt8 → String) (a : BakeArgs) : String :=
  let env := a.bakedEnv
  let mode := if env.truthy "SCHED_WORKQUEUE" then
    (if env.truthy "SCHED_CLC" then "-wqclc" else "-wqtk") else ""
  let mode := if a.timerIndirect || env.truthy "SCHED_TIMER_INDIRECT" then mode ++ "-ti" else mode
  let mode := if a.orderIndirect || env.truthy "SCHED_ORDER_INDIRECT" then mode ++ "-oi" else mode
  let mask := leverMask env
  let mode := if mask ≠ [] then mode ++ ("-no" ++ String.ofList mask) else mode
  mode ++ ("-w" ++ weaveTag hexdigest a.content)

def root (a : BakeArgs) : String := (a.bakedEnv "SCHED_CACHE_ROOT").getD a.defaultRoot

/-- The directory that FlashInfer caches the compiled kernels in. -/
def workspace (hexdigest : List UInt8 → String) (a : BakeArgs) : String :=
  pathJoin a.root ("va" ++ pyHex a.base ++ "-n" ++ pyStr a.maxTasks ++ a.mode hexdigest)

end BakeArgs

/-- `compute_bake_env`. -/
def computeBakeEnv (hexdigest : List UInt8 → String) (a : BakeArgs) : Env :=
  a.bakedEnv.set "FLASHINFER_WORKSPACE_BASE" (a.workspace hexdigest)

/-! ## The key -/

/-- What the workspace's name is made of. -/
@[ext] structure CacheKey where
  base : ℤ
  maxTasks : ℤ
  /-- The driver's claim realisation (CLC or ticket), when there is a driver. -/
  workqueue : Option Bool
  timer : Bool
  order : Bool
  noIndirect : Bool
  noShed : Bool
  noPolicy : Bool
  noTimer : Bool
  tag : List Char
  deriving DecidableEq

namespace CacheKey

def mask (k : CacheKey) : List Char :=
  (if k.noIndirect then ['i'] else []) ++ (if k.noShed then ['s'] else [])
    ++ (if k.noPolicy then ['p'] else []) ++ (if k.noTimer then ['t'] else [])

def workqueuePart : Option Bool → List (List Char)
  | none => []
  | some true => [['w', 'q', 'c', 'l', 'c']]
  | some false => [['w', 'q', 't', 'k']]

/-- The parts of the mode, each of which follows a dash. -/
def parts (k : CacheKey) : List (List Char) :=
  workqueuePart k.workqueue ++ (if k.timer then [['t', 'i']] else [])
    ++ (if k.order then [['o', 'i']] else [])
    ++ (if k.mask ≠ [] then ['n' :: 'o' :: k.mask] else []) ++ ['w' :: k.tag]

def name (k : CacheKey) : List Char :=
  'v' :: 'a' :: (formatInt 16 k.base ++ '-' :: 'n' :: (formatInt 10 k.maxTasks ++ delimited '-' k.parts))

end CacheKey

/-- A tag is made of hexadecimal digits, or is `none`. -/
def TagChar (c : Char) : Prop := (∃ d < 16, c = Nat.digitChar d) ∨ c = 'n' ∨ c = 'o'

theorem isAlphanum_digitChar {d : ℕ} (hd : d < 16) : d.digitChar.isAlphanum = true := by
  have key : ∀ d < 16, (Nat.digitChar d).isAlphanum = true := by decide
  exact key d hd

theorem TagChar.isAlphanum {c : Char} (h : TagChar c) : c.isAlphanum = true := by
  rcases h with ⟨d, hd, rfl⟩ | rfl | rfl
  · exact isAlphanum_digitChar hd
  · decide
  · decide

/-- The key of a call. -/
def BakeArgs.key (hexdigest : List UInt8 → String) (a : BakeArgs) : CacheKey where
  base := a.base
  maxTasks := a.maxTasks
  workqueue := if a.bakedEnv.truthy "SCHED_WORKQUEUE" then some (a.bakedEnv.truthy "SCHED_CLC") else none
  timer := a.bakedEnv.truthy "SCHED_TIMER_INDIRECT"
  order := a.bakedEnv.truthy "SCHED_ORDER_INDIRECT"
  noIndirect := a.bakedEnv.truthy "SCHED_NO_INDIRECT"
  noShed := a.bakedEnv.truthy "SCHED_NO_SHED"
  noPolicy := a.bakedEnv.truthy "SCHED_NO_POLICY"
  noTimer := a.bakedEnv.truthy "SCHED_NO_TIMER"
  tag := (weaveTag hexdigest a.content).toList

/-! ## The name has all of the key -/

namespace CacheKey

variable {k l : CacheKey}

theorem digit_ne {c : Char} (hc : ∀ i < 16, c ≠ Nat.digitChar i) : ¬ ∃ d < 16, c = Nat.digitChar d :=
  fun ⟨d, hd, he⟩ => hc d hd he

theorem tag_ne_q (h : ∀ c ∈ k.tag, TagChar c) (t : List Char) : k.tag ≠ 'q' :: t := by
  intro he
  have hq : TagChar 'q' := h 'q' (he ▸ List.mem_cons_self ..)
  rcases hq with hq | hq | hq
  · exact digit_ne (by decide) hq
  · exact absurd hq (by decide)
  · exact absurd hq (by decide)

theorem mem_parts {p : List Char} :
    p ∈ k.parts ↔ p ∈ workqueuePart k.workqueue ∨ (k.timer = true ∧ p = ['t', 'i']) ∨
      (k.order = true ∧ p = ['o', 'i']) ∨ (k.mask ≠ [] ∧ p = 'n' :: 'o' :: k.mask) ∨
      p = 'w' :: k.tag := by
  simp only [parts, List.mem_append, List.mem_ite_nil_right, List.mem_singleton, or_assoc]

theorem mem_workqueuePart {w : Option Bool} {p : List Char} :
    p ∈ workqueuePart w ↔
      (w = some true ∧ p = ['w', 'q', 'c', 'l', 'c']) ∨ (w = some false ∧ p = ['w', 'q', 't', 'k']) := by
  rcases w with _ | _ | _ <;> simp [workqueuePart]

theorem isAlphanum_parts (h : ∀ c ∈ k.tag, TagChar c) :
    ∀ p ∈ k.parts, ∀ c ∈ p, c.isAlphanum = true := by
  have hmask : k.mask.all Char.isAlphanum = true := by
    unfold mask
    split_ifs <;> decide
  intro p hp c hc
  rcases mem_parts.1 hp with hw | ⟨-, rfl⟩ | ⟨-, rfl⟩ | ⟨-, rfl⟩ | rfl
  · rcases mem_workqueuePart.1 hw with ⟨-, rfl⟩ | ⟨-, rfl⟩
    · exact List.all_eq_true.1 (by decide) c hc
    · exact List.all_eq_true.1 (by decide) c hc
  · exact List.all_eq_true.1 (by decide) c hc
  · exact List.all_eq_true.1 (by decide) c hc
  · simp only [List.mem_cons] at hc
    rcases hc with rfl | rfl | hc
    · decide
    · decide
    · exact List.all_eq_true.1 hmask c hc
  · rcases List.mem_cons.1 hc with rfl | hc
    · decide
    · exact (h c hc).isAlphanum

theorem dash_notMem_parts (h : ∀ c ∈ k.tag, TagChar c) : ∀ p ∈ k.parts, ∀ c ∈ p, c ≠ '-' := by
  intro p hp c hc he
  exact absurd (isAlphanum_parts h p hp c hc) (by rw [he]; decide)

theorem timer_mem_parts (k : CacheKey) : ['t', 'i'] ∈ k.parts ↔ k.timer = true := by
  simp [mem_parts, mem_workqueuePart]

theorem order_mem_parts (k : CacheKey) : ['o', 'i'] ∈ k.parts ↔ k.order = true := by
  simp [mem_parts, mem_workqueuePart]

theorem clc_mem_parts (h : ∀ c ∈ k.tag, TagChar c) :
    ['w', 'q', 'c', 'l', 'c'] ∈ k.parts ↔ k.workqueue = some true := by
  simp [mem_parts, mem_workqueuePart, (tag_ne_q h ['c', 'l', 'c']).symm]

theorem ticket_mem_parts (h : ∀ c ∈ k.tag, TagChar c) :
    ['w', 'q', 't', 'k'] ∈ k.parts ↔ k.workqueue = some false := by
  simp [mem_parts, mem_workqueuePart, (tag_ne_q h ['t', 'k']).symm]

/-- The only part that starts with `n` holds the mask. -/
theorem mask_mem_parts (m : List Char) : 'n' :: m ∈ k.parts ↔ k.mask ≠ [] ∧ m = 'o' :: k.mask := by
  simp [mem_parts, mem_workqueuePart]

theorem getLast_parts (k : CacheKey) : k.parts.getLast? = some ('w' :: k.tag) := by
  simp [parts]

/-- The letters of the mask differ. -/
theorem mask_injective (h : k.mask = l.mask) :
    k.noIndirect = l.noIndirect ∧ k.noShed = l.noShed ∧ k.noPolicy = l.noPolicy ∧
      k.noTimer = l.noTimer := by
  have hletter : ∀ j : CacheKey, ('i' ∈ j.mask ↔ j.noIndirect = true) ∧ ('s' ∈ j.mask ↔ j.noShed = true) ∧
      ('p' ∈ j.mask ↔ j.noPolicy = true) ∧ ('t' ∈ j.mask ↔ j.noTimer = true) := by
    intro j
    cases hi : j.noIndirect <;> cases hs : j.noShed <;> cases hp : j.noPolicy <;>
      cases ht : j.noTimer <;> simp [mask, hi, hs, hp, ht]
  obtain ⟨hi, hs, hp, ht⟩ := hletter k
  obtain ⟨hi', hs', hp', ht'⟩ := hletter l
  rw [h] at hi hs hp ht
  exact ⟨Bool.eq_iff_iff.2 (hi.symm.trans hi'), Bool.eq_iff_iff.2 (hs.symm.trans hs'),
    Bool.eq_iff_iff.2 (hp.symm.trans hp'), Bool.eq_iff_iff.2 (ht.symm.trans ht')⟩

theorem mask_eq_of_parts (h : k.parts = l.parts) : k.mask = l.mask := by
  have hmem : ∀ m, (k.mask ≠ [] ∧ m = 'o' :: k.mask) ↔ (l.mask ≠ [] ∧ m = 'o' :: l.mask) := by
    intro m
    rw [← mask_mem_parts, ← mask_mem_parts, h]
  by_cases hk : k.mask = []
  · by_contra hne
    exact ((hmem ('o' :: l.mask)).2 ⟨fun hl => hne (hk.trans hl.symm), rfl⟩).1 hk
  · exact (List.cons.inj ((hmem ('o' :: k.mask)).1 ⟨hk, rfl⟩).2).2

theorem workqueue_eq_of_parts (hk : ∀ c ∈ k.tag, TagChar c) (hl : ∀ c ∈ l.tag, TagChar c)
    (h : k.parts = l.parts) : k.workqueue = l.workqueue := by
  have hclc := clc_mem_parts hk
  have hticket := ticket_mem_parts hk
  rw [h, clc_mem_parts hl] at hclc
  rw [h, ticket_mem_parts hl] at hticket
  rcases hkw : k.workqueue with _ | _ | _ <;> rcases hlw : l.workqueue with _ | _ | _ <;>
    simp [hkw, hlw] at hclc hticket ⊢

/-- The base ends at the first `n`, which no hexadecimal numeral contains. -/
theorem base_inj {m n : ℤ} {r₁ r₂ : List Char}
    (h : formatInt 16 m ++ '-' :: 'n' :: r₁ = formatInt 16 n ++ '-' :: 'n' :: r₂) :
    m = n ∧ r₁ = r₂ := by
  obtain ⟨hmn, hr⟩ := formatInt_append_inj (by decide) (by decide) h
    (fun c hc => by cases hc; exact digit_ne (by decide))
    (fun c hc => by cases hc; exact digit_ne (by decide))
  exact ⟨hmn, (List.cons.inj (List.cons.inj hr).2).2⟩

theorem head_parts (k : CacheKey) :
    ∀ c ∈ (delimited '-' k.parts).head?, ¬ ∃ d < 10, c = Nat.digitChar d := by
  intro c hc
  have hdash : c = '-' := not_not.1 (head_delimited k.parts c hc)
  subst hdash
  rintro ⟨d, hd, he⟩
  exact digit_ne (c := '-') (by decide) ⟨d, by omega, he⟩

/-- **The key can be read back from the name.** -/
theorem name_injective (hk : ∀ c ∈ k.tag, TagChar c) (hl : ∀ c ∈ l.tag, TagChar c)
    (h : k.name = l.name) : k = l := by
  obtain ⟨hbase, hrest⟩ := base_inj (List.cons.inj (List.cons.inj h).2).2
  obtain ⟨hmax, hparts⟩ := formatInt_append_inj (by decide) (by decide) hrest
    (head_parts k) (head_parts l)
  have hparts := delimited_injective (dash_notMem_parts hk) (dash_notMem_parts hl) hparts
  have htimer := timer_mem_parts k
  have horder := order_mem_parts k
  have htag := getLast_parts k
  rw [hparts, timer_mem_parts l] at htimer
  rw [hparts, order_mem_parts l] at horder
  rw [hparts, getLast_parts l] at htag
  obtain ⟨hi, hs, hp, ht⟩ := mask_injective (mask_eq_of_parts hparts)
  exact CacheKey.ext hbase hmax (workqueue_eq_of_parts hk hl hparts) (Bool.eq_iff_iff.2 htimer.symm)
    (Bool.eq_iff_iff.2 horder.symm) hi hs hp ht (List.cons.inj (Option.some.inj htag)).2.symm

end CacheKey

/-! ## The workspace has the key's name -/

namespace BakeArgs

variable {hexdigest : List UInt8 → String} {a b : BakeArgs}

theorem leverMask_eq (hexdigest : List UInt8 → String) (a : BakeArgs) :
    leverMask a.bakedEnv = (a.key hexdigest).mask := by
  have hi : maskLetter "SCHED_NO_INDIRECT" = some 'i' := by decide
  have hs : maskLetter "SCHED_NO_SHED" = some 's' := by decide
  have hp : maskLetter "SCHED_NO_POLICY" = some 'p' := by decide
  have ht : maskLetter "SCHED_NO_TIMER" = some 't' := by decide
  unfold leverMask manifest CacheKey.mask key
  cases hti : a.bakedEnv.truthy "SCHED_NO_INDIRECT" <;> cases hts : a.bakedEnv.truthy "SCHED_NO_SHED" <;>
    cases htp : a.bakedEnv.truthy "SCHED_NO_POLICY" <;>
    cases htt : a.bakedEnv.truthy "SCHED_NO_TIMER" <;> simp [hti, hts, htp, htt, hi, hs, hp, ht]

theorem timer_truthy (a : BakeArgs) :
    (a.timerIndirect || a.bakedEnv.truthy "SCHED_TIMER_INDIRECT")
      = a.bakedEnv.truthy "SCHED_TIMER_INDIRECT" := by
  cases ht : a.timerIndirect with
  | false => rfl
  | true => cases ho : a.orderIndirect <;> simp [bakedEnv, ht, ho, Env.truthy, Env.set_apply]

theorem order_truthy (a : BakeArgs) :
    (a.orderIndirect || a.bakedEnv.truthy "SCHED_ORDER_INDIRECT")
      = a.bakedEnv.truthy "SCHED_ORDER_INDIRECT" := by
  cases ho : a.orderIndirect with
  | false => rfl
  | true => simp [bakedEnv, ho, Env.truthy, Env.set_apply]

theorem mode_eq (hexdigest : List UInt8 → String) (a : BakeArgs) :
    (a.mode hexdigest).toList = delimited '-' (a.key hexdigest).parts := by
  have hmask := leverMask_eq hexdigest a
  have htag : (a.key hexdigest).tag = (weaveTag hexdigest a.content).toList := rfl
  have hwork : (a.key hexdigest).workqueue =
      if a.bakedEnv.truthy "SCHED_WORKQUEUE" then some (a.bakedEnv.truthy "SCHED_CLC") else none := rfl
  have htimer : (a.key hexdigest).timer = a.bakedEnv.truthy "SCHED_TIMER_INDIRECT" := rfl
  have horder : (a.key hexdigest).order = a.bakedEnv.truthy "SCHED_ORDER_INDIRECT" := rfl
  rw [mode, timer_truthy, order_truthy, hmask, CacheKey.parts, htag, hwork, htimer, horder]
  by_cases hm : (a.key hexdigest).mask = [] <;> cases a.bakedEnv.truthy "SCHED_WORKQUEUE" <;>
    cases a.bakedEnv.truthy "SCHED_CLC" <;> cases a.bakedEnv.truthy "SCHED_TIMER_INDIRECT" <;>
    cases a.bakedEnv.truthy "SCHED_ORDER_INDIRECT" <;>
    simp [hm, delimited, CacheKey.workqueuePart]

theorem workspace_eq (hexdigest : List UInt8 → String) (a : BakeArgs) :
    a.workspace hexdigest = pathJoin a.root (String.ofList (a.key hexdigest).name) := by
  have hname : "va" ++ pyHex a.base ++ "-n" ++ pyStr a.maxTasks ++ a.mode hexdigest
      = String.ofList (a.key hexdigest).name := by
    apply String.toList_injective
    simp only [String.toList_append, mode_eq, String.toList_ofList, pyHex, pyStr, CacheKey.name, key]
    simp
  rw [workspace, hname]

theorem pathJoin_injective {root n n' : String} (hn : n.toList.head? ≠ some '/')
    (hn' : n'.toList.head? ≠ some '/') (h : pathJoin root n = pathJoin root n') : n = n' := by
  rw [pathJoin, pathJoin, if_neg hn, if_neg hn'] at h
  have hcancel : ∀ s : String, s ++ n = s ++ n' → n = n' := by
    intro s hs
    apply String.toList_injective
    have hlist := congrArg String.toList hs
    rw [String.toList_append, String.toList_append] at hlist
    exact List.append_cancel_left hlist
  split at h
  · exact hcancel root h
  · exact hcancel (root ++ "/") h

theorem tagChar_key (hhex : ∀ c, ∀ x ∈ (hexdigest c).toList, ∃ d < 16, x = Nat.digitChar d)
    (a : BakeArgs) : ∀ c ∈ (a.key hexdigest).tag, TagChar c := by
  intro c hc
  rcases hcontent : a.content with _ | content
  · have htag : (a.key hexdigest).tag = ['n', 'o', 'n', 'e'] := by
      show (weaveTag hexdigest a.content).toList = _
      rw [hcontent, weaveTag]
      decide
    rw [htag] at hc
    simp only [List.mem_cons, List.not_mem_nil, or_false] at hc
    rcases hc with rfl | rfl | rfl | rfl
    · exact Or.inr (Or.inl rfl)
    · exact Or.inr (Or.inr rfl)
    · exact Or.inr (Or.inl rfl)
    · exact Or.inl ⟨14, by decide, rfl⟩
  · have htag : (a.key hexdigest).tag = (hexdigest content).toList.take 8 := by
      rw [key, hcontent, weaveTag, String.toList_ofList]
    rw [htag] at hc
    exact Or.inl (hhex content c (List.mem_of_mem_take hc))

theorem workspace_eq_iff (hhex : ∀ c, ∀ x ∈ (hexdigest c).toList, ∃ d < 16, x = Nat.digitChar d)
    (hroot : a.root = b.root) : a.workspace hexdigest = b.workspace hexdigest ↔
      a.key hexdigest = b.key hexdigest := by
  have hhead : ∀ k : CacheKey, (String.ofList k.name).toList.head? ≠ some '/' := by
    intro k
    rw [String.toList_ofList, CacheKey.name, List.head?_cons]
    decide
  rw [workspace_eq, workspace_eq, hroot]
  constructor
  · intro h
    have hname := congrArg String.toList (pathJoin_injective (hhead _) (hhead _) h)
    rw [String.toList_ofList, String.toList_ofList] at hname
    exact CacheKey.name_injective (tagChar_key hhex a) (tagChar_key hhex b) hname
  · intro h
    rw [h]

end BakeArgs

/-! ## What the pass reads -/

/-- The on/off variables that the workspace's name has by their truth. -/
def keyedSwitches : List String :=
  ["SCHED_TIMER_INDIRECT", "SCHED_ORDER_INDIRECT", "SCHED_NO_INDIRECT", "SCHED_NO_SHED",
    "SCHED_NO_POLICY", "SCHED_NO_TIMER"]

/-- The variables that the pass reads by their presence and the name does not have. -/
def unkeyedSwitches : List String := ["SCHED_PDL", "SCHED_CLC", "SCHED_WORKQUEUE"]

/-- What a compile depends on: the pass itself, its configuration short of the debug notes, and
    whether and for which kernels there is a driver. -/
structure JitInputs where
  plugin : Option (List UInt8)
  config : BakedConfig
  workqueue : Bool
  kernels : String → Bool

def BakeArgs.jitInputs (hexdigest : List UInt8 → String) (a : BakeArgs) : JitInputs :=
  let env := computeBakeEnv hexdigest a
  { plugin := a.content
    config := { Config.fromEnv env with debug := false }
    workqueue := env.present "SCHED_WORKQUEUE"
    kernels := nameSelected env }

/-- The two calls agree on what the name has. -/
structure SameKeyed (a b : BakeArgs) : Prop where
  base : a.base = b.base
  maxTasks : a.maxTasks = b.maxTasks
  content : a.content = b.content
  workqueue : a.bakedEnv.truthy "SCHED_WORKQUEUE" = b.bakedEnv.truthy "SCHED_WORKQUEUE"
  clc : a.bakedEnv.truthy "SCHED_WORKQUEUE" = true →
    a.bakedEnv.truthy "SCHED_CLC" = b.bakedEnv.truthy "SCHED_CLC"
  switches : ∀ k ∈ keyedSwitches, a.bakedEnv.truthy k = b.bakedEnv.truthy k

/-- The two calls agree on what the name leaves out: the numbers, the switches that it does not have,
    and which of the others are set to nothing. -/
structure SameUnkeyed (a b : BakeArgs) : Prop where
  slotAxis : envInt a.bakedEnv "SCHED_SLOT_AXIS" 0 = envInt b.bakedEnv "SCHED_SLOT_AXIS" 0
  prefetchDist : envPrefetchDist a.bakedEnv = envPrefetchDist b.bakedEnv
  dT : envF a.bakedEnv "SCHED_DT" (.ofNat 1) = envF b.bakedEnv "SCHED_DT" (.ofNat 1)
  dR : envF a.bakedEnv "SCHED_DR" (.ofNat 1) = envF b.bakedEnv "SCHED_DR" (.ofNat 1)
  H : envF a.bakedEnv "SCHED_H" (.ofScientific 25 (-2)) = envF b.bakedEnv "SCHED_H" (.ofScientific 25 (-2))
  presence : ∀ k ∈ unkeyedSwitches, a.bakedEnv.present k = b.bakedEnv.present k
  kernels : nameSelected a.bakedEnv = nameSelected b.bakedEnv
  empties : ∀ k ∈ keyedSwitches, a.bakedEnv k = some "" ↔ b.bakedEnv k = some ""

variable {hexdigest : List UInt8 → String} {a b : BakeArgs}

theorem computeBakeEnv_apply {k : String} (h : k ≠ "FLASHINFER_WORKSPACE_BASE") :
    computeBakeEnv hexdigest a k = a.bakedEnv k := by
  rw [computeBakeEnv, Env.set_apply, if_neg h]

theorem fromEnv_computeBakeEnv : Config.fromEnv (computeBakeEnv hexdigest a) = Config.fromEnv a.bakedEnv := by
  simp [Config.fromEnv, envInt, envF, envAddr, envMaxTasks, envPrefetchDist, Env.present,
    computeBakeEnv_apply]
  rfl

theorem nameSelected_computeBakeEnv :
    nameSelected (computeBakeEnv hexdigest a) = nameSelected a.bakedEnv := by
  funext name
  simp [nameSelected, computeBakeEnv_apply]

theorem key_eq_iff (hcoll : weaveTag hexdigest a.content = weaveTag hexdigest b.content →
    a.content = b.content) : a.key hexdigest = b.key hexdigest ↔ SameKeyed a b := by
  constructor
  · intro h
    obtain ⟨hbase, hmax, hw, hti, hoi, hni, hns, hnp, hnt, htag⟩ := CacheKey.ext_iff.1 h
    refine ⟨hbase, hmax, hcoll (String.toList_injective htag), ?_, ?_, ?_⟩
    · by_cases hwa : a.bakedEnv.truthy "SCHED_WORKQUEUE" = true <;>
        by_cases hwb : b.bakedEnv.truthy "SCHED_WORKQUEUE" = true <;>
          simp_all [BakeArgs.key]
    · intro hwa
      by_cases hwb : b.bakedEnv.truthy "SCHED_WORKQUEUE" = true
      · simp only [BakeArgs.key, if_pos hwa, if_pos hwb] at hw
        exact Option.some.inj hw
      · simp only [BakeArgs.key, if_pos hwa, if_neg hwb] at hw
        cases hw
    · simp only [keyedSwitches, List.forall_mem_cons]
      exact ⟨hti, hoi, hni, hns, hnp, hnt, fun _ h => absurd h List.not_mem_nil⟩
  · rintro ⟨hbase, hmax, hcontent, hw, hclc, hswitches⟩
    simp only [keyedSwitches, List.forall_mem_cons] at hswitches
    obtain ⟨hti, hoi, hni, hns, hnp, hnt, -⟩ := hswitches
    refine CacheKey.ext hbase hmax ?_ hti hoi hni hns hnp hnt ?_
    · simp only [BakeArgs.key, ← hw]
      split
      · next hwa => rw [hclc hwa]
      · rfl
    · simp only [BakeArgs.key, hcontent]

theorem BakeArgs.maxTasks_env (a : BakeArgs) : a.bakedEnv "SCHED_MAX_TASKS" = some (pyStr a.maxTasks) := by
  cases ht : a.timerIndirect <;> cases ho : a.orderIndirect <;>
    simp [bakedEnv, ht, ho, Env.set_apply]

theorem BakeArgs.bake_env (a : BakeArgs) :
    a.bakedEnv "SCHED_BAKE_TASK_ORDER" = some (pyStr (a.base + orderOff)) ∧
      a.bakedEnv "SCHED_BAKE_CTRL" = some (pyStr (a.base + ctrlOff)) ∧
      a.bakedEnv "SCHED_BAKE_TIMER" = some (pyStr (a.base + timerOff)) ∧
      a.bakedEnv "SCHED_BAKE_QUEUE" = some (pyStr (a.base + queueOff)) := by
  cases ht : a.timerIndirect <;> cases ho : a.orderIndirect <;>
    simp [bakedEnv, ht, ho, Env.set_apply]

/-- A switch with the same truth on both sides is present on both iff it is empty on both. -/
theorem present_iff_empty {env env' : Env} {k : String} (h : env.truthy k = env'.truthy k) :
    env.present k = env'.present k ↔ (env k = some "" ↔ env' k = some "") := by
  have hempty : ∀ e : Env, e k = some "" → e.truthy k = false := by
    intro e he
    simp [Env.truthy, he]
  rw [Env.present_eq, Env.present_eq, h]
  cases ht : env'.truthy k with
  | true =>
      have hne : ∀ e : Env, e.truthy k = true → ¬ e k = some "" := by
        intro e he hs
        rw [hempty e hs] at he
        cases he
      exact iff_of_true rfl (iff_of_false (hne env (h.trans ht)) (hne env' ht))
  | false => rw [Bool.false_or, Bool.false_or, Bool.eq_iff_iff, beq_iff_eq, beq_iff_eq]

/-- Calls that agree on the name's part compile for the same inputs iff they agree on the rest. -/
theorem jitInputs_eq_iff (h : SameKeyed a b) :
    a.jitInputs hexdigest = b.jitInputs hexdigest ↔ SameUnkeyed a b := by
  obtain ⟨hbase, hmax, hcontent, -, -, hswitches⟩ := h
  simp only [keyedSwitches, List.forall_mem_cons] at hswitches
  obtain ⟨hti, hoi, hni, hns, hnp, hnt, -⟩ := hswitches
  obtain ⟨ho, hc, ht, hq⟩ := a.bake_env
  obtain ⟨ho', hc', ht', hq'⟩ := b.bake_env
  have hmaxTasks : envMaxTasks a.bakedEnv = envMaxTasks b.bakedEnv := by
    simp only [envMaxTasks, envInt, a.maxTasks_env, b.maxTasks_env, hmax]
  have hpresent : ∀ c : BakeArgs, (computeBakeEnv hexdigest c).present "SCHED_WORKQUEUE"
      = c.bakedEnv.present "SCHED_WORKQUEUE" := by
    intro c
    rw [Env.present, computeBakeEnv_apply (by decide), Env.present]
  simp only [BakeArgs.jitInputs, JitInputs.mk.injEq, fromEnv_computeBakeEnv,
    nameSelected_computeBakeEnv, hpresent, hcontent, true_and]
  constructor
  · rintro ⟨hconfig, hwork, hkernels⟩
    refine
      { slotAxis := congrArg (·.slotAxis) hconfig, prefetchDist := congrArg (·.prefetchDist) hconfig
        dT := congrArg (·.dT) hconfig, dR := congrArg (·.dR) hconfig, H := congrArg (·.H) hconfig
        presence := ?_, kernels := hkernels, empties := ?_ }
    · simp only [unkeyedSwitches, List.forall_mem_cons]
      exact ⟨congrArg (·.pdl) hconfig, congrArg (·.clc) hconfig, hwork,
        fun _ h => absurd h List.not_mem_nil⟩
    · simp only [keyedSwitches, List.forall_mem_cons]
      exact ⟨(present_iff_empty hti).1 (congrArg (·.timerIndirect) hconfig),
        (present_iff_empty hoi).1 (congrArg (·.orderIndirect) hconfig),
        (present_iff_empty hni).1 (Bool.not_inj (congrArg (·.indirect) hconfig)),
        (present_iff_empty hns).1 (Bool.not_inj (congrArg (·.shed) hconfig)),
        (present_iff_empty hnp).1 (Bool.not_inj (congrArg (·.policy) hconfig)),
        (present_iff_empty hnt).1 (Bool.not_inj (congrArg (·.timer) hconfig)),
        fun _ h => absurd h List.not_mem_nil⟩
  · rintro ⟨haxis, hdist, hdT, hdR, hH, hpresence, hkernels, hempties⟩
    simp only [keyedSwitches, List.forall_mem_cons] at hempties
    simp only [unkeyedSwitches, List.forall_mem_cons] at hpresence
    obtain ⟨hpdl, hclc, hwork, -⟩ := hpresence
    obtain ⟨eti, eoi, eni, ens, enp, ent, -⟩ := hempties
    refine ⟨?_, hwork, hkernels⟩
    simp only [Config.fromEnv, haxis, hmaxTasks, (present_iff_empty hni).2 eni,
      (present_iff_empty hnt).2 ent, (present_iff_empty hnp).2 enp, (present_iff_empty hns).2 ens, hclc,
      (present_iff_empty hti).2 eti, (present_iff_empty hoi).2 eoi, hpdl, hdist, hdT, hdR, hH, envAddr,
      ho, ho', hc, hc', ht, ht', hq, hq', hbase]

/-- **The cache key is injective exactly on calls that agree on what it leaves out.** Two calls with the
    same cache root: that the same workspace means the same compile inputs is the case if and only
    if the calls differ in something the name has, or agree on the slot axis, the prefetch distance,
    the three weights, the presence of `SCHED_PDL`, `SCHED_CLC` and `SCHED_WORKQUEUE`, the kernel
    filter, and on which of the other switches are set to the empty string. -/
theorem cache_key_iff (hexdigest : List UInt8 → String)
    (hhex : ∀ c, ∀ x ∈ (hexdigest c).toList, ∃ d < 16, x = Nat.digitChar d) (a b : BakeArgs)
    (hroot : a.root = b.root)
    (hcoll : weaveTag hexdigest a.content = weaveTag hexdigest b.content → a.content = b.content) :
    (computeBakeEnv hexdigest a "FLASHINFER_WORKSPACE_BASE"
        = computeBakeEnv hexdigest b "FLASHINFER_WORKSPACE_BASE" →
      a.jitInputs hexdigest = b.jitInputs hexdigest) ↔ (SameKeyed a b → SameUnkeyed a b) := by
  have hpath : computeBakeEnv hexdigest a "FLASHINFER_WORKSPACE_BASE"
      = computeBakeEnv hexdigest b "FLASHINFER_WORKSPACE_BASE" ↔ SameKeyed a b := by
    rw [computeBakeEnv, computeBakeEnv, Env.set_apply, Env.set_apply, if_pos rfl, if_pos rfl,
      Option.some_inj, BakeArgs.workspace_eq_iff hhex hroot, key_eq_iff hcoll]
  rw [hpath]
  exact forall_congr' fun h => jitInputs_eq_iff h

/-- A call for a plane of 256 tasks at the canonical address. -/
def sampleCall (env : Env) : BakeArgs where
  base := 0x5C0000000000
  maxTasks := 256
  plugin := "libSchedPass.so"
  content := some []
  baseEnv := env
  defaultRoot := "/root/.cache/flashinfer-sched"

def sampleDigest (_ : List UInt8) : String := "d41d8cd98f00b204e9800998ecf8427e"

theorem sampleDigest_hex :
    ∀ content, ∀ x ∈ (sampleDigest content).toList, ∃ d < 16, x = Nat.digitChar d := by
  intro content x hx
  have hall : ∀ x ∈ "d41d8cd98f00b204e9800998ecf8427e".toList,
      x ∈ (List.range 16).map Nat.digitChar := by
    simp [List.range, List.range.loop, Nat.digitChar]
  obtain ⟨d, hd, rfl⟩ := List.mem_map.1 (hall x hx)
  exact ⟨d, List.mem_range.1 hd, rfl⟩

/-- `SCHED_DEBUG` is in neither. -/
theorem cache_key_iff_debug :
    (sampleCall (Env.set (fun _ => none) "SCHED_DEBUG" "1")).jitInputs sampleDigest
      = (sampleCall fun _ => none).jitInputs sampleDigest := by
  have hsame : ∀ k ≠ "SCHED_DEBUG", (sampleCall (Env.set (fun _ => none) "SCHED_DEBUG" "1")).bakedEnv k
      = (sampleCall fun _ => none).bakedEnv k := by
    intro k hk
    simp [BakeArgs.bakedEnv, sampleCall, Env.set_apply, hk]
  refine (cache_key_iff sampleDigest sampleDigest_hex (sampleCall (Env.set (fun _ => none)
    "SCHED_DEBUG" "1")) (sampleCall fun _ => none) ?_ (fun _ => rfl)).2 (fun _ => ?_) ?_
  · rw [BakeArgs.root, hsame _ (by decide)]
    rfl
  · constructor <;> simp [envInt, envPrefetchDist, envF, Env.present, hsame, keyedSwitches,
      unkeyedSwitches, funext_iff, nameSelected]
  · decide

/-- Two values of `SCHED_SLOT_AXIS` share a workspace. -/
theorem cache_key_misses_axis :
    computeBakeEnv sampleDigest (sampleCall fun _ => none) "FLASHINFER_WORKSPACE_BASE"
        = computeBakeEnv sampleDigest (sampleCall (Env.set (fun _ => none) "SCHED_SLOT_AXIS" "1"))
          "FLASHINFER_WORKSPACE_BASE" ∧
      ((sampleCall fun _ => none).jitInputs sampleDigest).config.slotAxis = 0 ∧
      ((sampleCall (Env.set (fun _ => none) "SCHED_SLOT_AXIS" "1")).jitInputs
        sampleDigest).config.slotAxis = 1 := by
  decide

end SchedPass
