import SchedPass.Jit.PreArm

set_option autoImplicit false

/-! # Arming the process from the plane (`SchedPlane.bake_env`, `arm_process_env`)

`arm_process_env` computes the compile environment from the process's own and then sets or removes the
baked keys, so that a channel variable that the plane does not ask for would be removed. But the computed
environment starts as a copy of the process's, and the builder only adds channel variables: an inherited
one is found in the copy, kept, and named in the workspace (`flagsDescribe_iff`). -/

namespace SchedPass

namespace SchedPlane

/-- The call of `compute_bake_env` that `bake_env(plugin)` makes. -/
def bakeCall (ctx : ArmContext) (p : SchedPlane) (plugin : String) (os : Env) : BakeArgs :=
  ctx.call os plugin p.base p.N p.timerDev.isSome p.orderDev.isSome

def bakeEnv (ctx : ArmContext) (p : SchedPlane) (plugin : String) (os : Env) : Env :=
  computeBakeEnv ctx.hexdigest (p.bakeCall ctx plugin os)

/-- The process environment after `arm_process_env`. -/
def armProcessEnv (ctx : ArmContext) (p : SchedPlane) (plugin : String) (os : Env) : Env :=
  applyBake os (p.bakeEnv ctx plugin os)

end SchedPlane

/-! ## Tags -/

/-- The dash-separated words of a path's last component. -/
def pathTags (path : String) : List (List Char) :=
  ((path.toList.splitOn '/').getLast?.getD []).splitOn '-'

/-- The words of the workspace's name. -/
def workspaceTags (env : Env) : List (List Char) := pathTags ((env "FLASHINFER_WORKSPACE_BASE").getD "")

theorem pathTags_pathJoin {root : String} {name : List Char} (hslash : '/' ∉ name) :
    pathTags (pathJoin root (String.ofList name)) = name.splitOn '-' := by
  have hlast : ∀ r : List Char,
      ((r ++ '/' :: name).splitOn '/').getLast?.getD [] = name := by
    intro r
    rw [List.splitOn_append_cons_self, List.splitOn_eq_singleton hslash]
    simp
  have hhead : ¬(String.ofList name).toList.head? = some '/' := by
    rw [String.toList_ofList]
    exact fun h => hslash (List.mem_of_mem_head? h)
  rw [pathTags, pathJoin, if_neg hhead]
  split
  · next hroot =>
      rcases hroot with rfl | hroot
      · simp [List.splitOn_eq_singleton hslash]
      · obtain ⟨r, hr⟩ := List.getLast?_eq_some_iff.1 hroot
        rw [String.toList_append, hr, String.toList_ofList, List.append_assoc, List.singleton_append,
          hlast]
  · rw [String.toList_append, String.toList_append, String.toList_ofList, String.toList_ofList,
      List.append_assoc, List.singleton_append, hlast]

namespace CacheKey

variable {k : CacheKey}

theorem slash_notMem_name (htag : ∀ c ∈ k.tag, TagChar c) : '/' ∉ k.name := by
  have hint : ∀ {b : ℕ} {n : ℤ}, 1 < b → b ≤ 16 → '/' ∉ formatInt b n := by
    intro b n hb hb16 h
    rcases mem_formatInt hb h with ⟨-, h⟩ | ⟨d, hd, h⟩
    · exact absurd h (by decide)
    · exact absurd (isAlphanum_digitChar (hd.trans_le hb16)) (by rw [← h]; decide)
  have hparts : '/' ∉ delimited '-' k.parts := by
    intro h
    rcases mem_delimited h with h | ⟨p, hp, h⟩
    · exact absurd h (by decide)
    · exact absurd (isAlphanum_parts htag p hp _ h) (by decide)
  simp [name, hint, hparts]

/-- A name without signs splits into its words. -/
theorem splitOn_name (hbase : 0 ≤ k.base) (hmax : 0 ≤ k.maxTasks) (htag : ∀ c ∈ k.tag, TagChar c) :
    k.name.splitOn '-'
      = ('v' :: 'a' :: formatInt 16 k.base) :: ('n' :: formatInt 10 k.maxTasks) :: k.parts := by
  have hint : ∀ {b : ℕ} {n : ℤ}, 1 < b → b ≤ 16 → 0 ≤ n → '-' ∉ formatInt b n := by
    intro b n hb hb16 hn h
    rcases mem_formatInt hb h with ⟨hneg, -⟩ | ⟨d, hd, h⟩
    · exact absurd hneg (not_lt.2 hn)
    · exact absurd (isAlphanum_digitChar (hd.trans_le hb16)) (by rw [← h]; decide)
  have hname : k.name = ('v' :: 'a' :: formatInt 16 k.base)
      ++ delimited '-' (('n' :: formatInt 10 k.maxTasks) :: k.parts) := by
    simp [name, delimited_cons]
  rw [hname, splitOn_delimited]
  · simp [hint, hbase]
  · rw [List.forall_mem_cons]
    refine ⟨by simp [hint, hmax], fun p hp h => ?_⟩
    exact dash_notMem_parts htag p hp _ h rfl

end CacheKey

section

variable (ctx : ArmContext) (p : SchedPlane) (plugin : String) (os : Env)

theorem mem_workspaceTags (hhex : ∀ c, ∀ x ∈ (ctx.hexdigest c).toList, ∃ d < 16, x = Nat.digitChar d)
    {t : List Char} (hv : t.head? ≠ some 'v') (hn : t.head? ≠ some 'n') :
    t ∈ workspaceTags (p.armProcessEnv ctx plugin os) ↔
      t ∈ ((p.bakeCall ctx plugin os).key ctx.hexdigest).parts := by
  have htag := BakeArgs.tagChar_key hhex (p.bakeCall ctx plugin os)
  have hws : p.armProcessEnv ctx plugin os "FLASHINFER_WORKSPACE_BASE"
      = some ((p.bakeCall ctx plugin os).workspace ctx.hexdigest) := by
    rw [SchedPlane.armProcessEnv, applyBake_apply, if_pos (by decide), SchedPlane.bakeEnv,
      computeBakeEnv, Env.set_apply, if_pos rfl]
  rw [workspaceTags, hws, Option.getD_some, BakeArgs.workspace_eq,
    pathTags_pathJoin (CacheKey.slash_notMem_name htag),
    CacheKey.splitOn_name (Int.natCast_nonneg _) (Int.natCast_nonneg _) htag, List.mem_cons,
    List.mem_cons]
  constructor
  · rintro (rfl | rfl | h)
    · exact absurd rfl hv
    · exact absurd rfl hn
    · exact h
  · exact fun h => .inr (.inr h)

end

/-! ## The flags -/

/-- The channel variables that a compile in `env` reads, and the tags of its workspace, are those of the
    plane's channels. -/
structure FlagsDescribe (p : SchedPlane) (env : Env) : Prop where
  timer : env.present "SCHED_TIMER_INDIRECT" = p.timerDev.isSome
  order : env.present "SCHED_ORDER_INDIRECT" = p.orderDev.isSome
  timerTag : ['t', 'i'] ∈ workspaceTags env ↔ p.timerDev.isSome = true
  orderTag : ['o', 'i'] ∈ workspaceTags env ↔ p.orderDev.isSome = true

/-- Set to 1 or inherited. -/
theorem present_baked {inherited : Option String} {indirect : Bool} {env : Env} {k : String}
    (h : env k = if indirect then some "1" else inherited) :
    env.present k = indirect ↔ indirect = true ∨ inherited = none := by
  rw [Env.present, h]
  cases indirect with
  | true => simp
  | false => cases inherited <;> simp

theorem truthy_baked {inherited : Option String} {indirect : Bool} {env : Env} {k : String}
    (h : env k = if indirect then some "1" else inherited) (hclean : indirect = true ∨ inherited = none) :
    env.truthy k = indirect := by
  rw [Env.truthy, h]
  cases indirect with
  | true => rfl
  | false =>
      rw [hclean.resolve_left Bool.false_ne_true]
      rfl

/-- **The baked flags describe the plane exactly when nothing else was inherited.** For every process
    environment and every state of the two channels: a channel variable is inherited only where the
    channel is the device one. -/
theorem flagsDescribe_iff (ctx : ArmContext)
    (hhex : ∀ c, ∀ x ∈ (ctx.hexdigest c).toList, ∃ d < 16, x = Nat.digitChar d) (p : SchedPlane)
    (plugin : String) (os : Env) :
    FlagsDescribe p (p.armProcessEnv ctx plugin os) ↔
      (p.timerDev.isSome = true ∨ os "SCHED_TIMER_INDIRECT" = none) ∧
        (p.orderDev.isSome = true ∨ os "SCHED_ORDER_INDIRECT" = none) := by
  let a := p.bakeCall ctx plugin os
  have happly : p.armProcessEnv ctx plugin os = computeBakeEnv ctx.hexdigest a :=
    applyBake_computeBakeEnv ctx.hexdigest a
  have htimer := bakedEnv_timer a
  have horder := bakedEnv_order a
  have htimer' : p.armProcessEnv ctx plugin os "SCHED_TIMER_INDIRECT" =
      if p.timerDev.isSome then some "1" else os "SCHED_TIMER_INDIRECT" := by
    rw [happly, computeBakeEnv_apply (by decide), htimer]
    rfl
  have horder' : p.armProcessEnv ctx plugin os "SCHED_ORDER_INDIRECT" =
      if p.orderDev.isSome then some "1" else os "SCHED_ORDER_INDIRECT" := by
    rw [happly, computeBakeEnv_apply (by decide), horder]
    rfl
  constructor
  · rintro ⟨ht, ho, -, -⟩
    exact ⟨(present_baked htimer').1 ht, (present_baked horder').1 ho⟩
  · rintro ⟨ht, ho⟩
    refine ⟨(present_baked htimer').2 ht, (present_baked horder').2 ho, ?_, ?_⟩
    · rw [mem_workspaceTags ctx p plugin os hhex (by decide) (by decide), CacheKey.timer_mem_parts]
      exact (Bool.eq_iff_iff.1 (truthy_baked htimer ht))
    · rw [mem_workspaceTags ctx p plugin os hhex (by decide) (by decide), CacheKey.order_mem_parts]
      exact (Bool.eq_iff_iff.1 (truthy_baked horder ho))

/-- A plane with a device order table, in a process that was armed for one before. -/
theorem flagsDescribe_rearmed :
    FlagsDescribe { N := 4096, base := 0x5C0000000000, orderDev := some 4096 }
      (SchedPlane.armProcessEnv sampleContext
        { N := 4096, base := 0x5C0000000000, orderDev := some 4096 } "p.so"
        (Env.set (fun _ => none) "SCHED_ORDER_INDIRECT" "1")) :=
  (flagsDescribe_iff sampleContext sampleDigest_hex _ _ _).2 ⟨.inr (by decide), .inl rfl⟩

/-- An inherited `SCHED_TIMER_INDIRECT`, and a plane with its timer rows in the arena: the variable stays. -/
theorem not_flagsDescribe_inherited :
    ¬FlagsDescribe { N := 4096, base := 0x5C0000000000 }
      (SchedPlane.armProcessEnv sampleContext { N := 4096, base := 0x5C0000000000 } "p.so"
        (Env.set (fun _ => none) "SCHED_TIMER_INDIRECT" "1")) := by
  intro h
  have hset : (SchedPlane.armProcessEnv sampleContext { N := 4096, base := 0x5C0000000000 } "p.so"
      (Env.set (fun _ => none) "SCHED_TIMER_INDIRECT" "1")).present "SCHED_TIMER_INDIRECT" = true := by
    decide
  rw [h.timer] at hset
  exact absurd hset (by decide)

end SchedPass
