import SchedPass.Jit.Accesses
import SchedPass.Jit.ArmProcess

set_option autoImplicit false

/-! # Woven code and the plane's windows

A kernel compiled in the environment of `bake_env` has the plane's tables as its slots and, unless the
plane has no rows, its capacity as the bound of every index. So every access of the kernel and every
write of the host stays in its own table, with one exception: an inherited `SCHED_ORDER_INDIRECT` makes
the kernel take entries of a direct table for an address (`keepsWindows_iff`). -/

namespace SchedPass

/-! ## Reading numbers back -/

namespace CNumber

theorem ofDigits_toDigits (n : ℕ) : ofDigits 10 (Nat.toDigits 10 n) = n := by
  have hfold : ∀ (s : List Char) (init : ℕ), (∀ c ∈ s, c.isDigit = true) →
      s.foldl (fun n c => 10 * n + digitValue c) init = Nat.ofDigitChars 10 s init := by
    intro s
    induction s with
    | nil => intros; rfl
    | cons c s ih =>
        intro init hs
        obtain ⟨hc, hs⟩ := List.forall_mem_cons.1 hs
        rw [List.foldl_cons, ih _ hs, digitValue, if_pos hc, Nat.ofDigitChars_cons]
        rfl
  rw [ofDigits, hfold _ 0 fun c => Nat.isDigit_of_mem_toDigits (by decide) (by decide)]
  exact Nat.ofDigitChars_ten_toDigits

/-- A numeral is neither signed nor behind spaces, and has digits only. -/
theorem takeSign_pyStr (n : ℕ) :
    takeSign ((pyStr n).toList.dropWhile isSpace) = (false, Nat.toDigits 10 n) ∧
      (Nat.toDigits 10 n).takeWhile Char.isDigit = Nat.toDigits 10 n := by
  have hdigit : ∀ c ∈ Nat.toDigits 10 n, isSpace c = false ∧ c ≠ '-' ∧ c ≠ '+' := by
    intro c hc
    have key : ∀ d < 10, isSpace (Nat.digitChar d) = false ∧ Nat.digitChar d ≠ '-' ∧
        Nat.digitChar d ≠ '+' := by decide
    obtain ⟨d, hd, rfl⟩ := mem_toDigits (by decide) hc
    exact key d hd
  have hstr : (pyStr n).toList = Nat.toDigits 10 n := String.toList_ofList
  constructor
  · rw [hstr]
    rcases hd : Nat.toDigits 10 n with _ | ⟨c, ds⟩
    · exact absurd hd Nat.toDigits_ne_nil
    · obtain ⟨hspace, hminus, hplus⟩ := hdigit c (hd ▸ List.mem_cons_self)
      rw [List.dropWhile_cons_of_neg (by simp [hspace]), takeSign.eq_def]
      split
      · next heq => exact absurd (List.cons.inj heq).1 hminus
      · next heq => exact absurd (List.cons.inj heq).1 hplus
      · rfl
  · rw [List.takeWhile_eq_self_iff]
    exact fun c => Nat.isDigit_of_mem_toDigits (by decide) (by decide)

theorem strtol_pyStr {n : ℕ} (hn : n < 2 ^ 63) : strtol (pyStr n) = n := by
  obtain ⟨hsign, hdigits⟩ := takeSign_pyStr n
  simp only [strtol, hsign, hdigits, ofDigits_toDigits, Bool.false_eq_true, if_false]
  omega

theorem atoi_pyStr {n : ℕ} (hn : n < 2 ^ 31) : atoi (pyStr n) = n := by
  rw [atoi, strtol_pyStr (by omega), Int.bmod_eq_of_le (by omega) (by omega)]

theorem strtoull_pyStr {n : ℕ} (hn : n < 2 ^ 64) : strtoull (pyStr n) = n := by
  obtain ⟨hsign, hdigits⟩ := takeSign_pyStr n
  simp only [strtoull, hsign, hdigits, ofDigits_toDigits, ge_iff_le, not_le.2 hn, if_false,
    Bool.false_eq_true]

end CNumber

/-! ## The woven configuration -/

/-- The configuration of a compile in the environment of `bake_env`. -/
def SchedPlane.wovenConfig (ctx : ArmContext) (p : SchedPlane) (plugin : String) (os : Env) :
    BakedConfig :=
  Config.fromEnv (p.bakeEnv ctx plugin os)

section

variable (ctx : ArmContext) {p : SchedPlane} (plugin : String) (os : Env)

theorem wovenConfig_eq :
    p.wovenConfig ctx plugin os = Config.fromEnv (p.bakeCall ctx plugin os).bakedEnv :=
  fromEnv_computeBakeEnv

theorem wovenConfig_slots (hfit : p.base + arenaBytes ≤ 2 ^ 64) :
    (p.wovenConfig ctx plugin os).slots = p.slots := by
  obtain ⟨horder, hctrl, htimer, hqueue⟩ := (p.bakeCall ctx plugin os).bake_env
  have haddr : ∀ (k : String) (t : Table),
      (p.bakeCall ctx plugin os).bakedEnv k = some (pyStr ((p.base : ℤ) + t.off)) →
        envAddr (p.bakeCall ctx plugin os).bakedEnv k = p.base + t.off := by
    intro k t hk
    have hoff := t.off_le
    simp only [windowBytes] at hoff
    rw [envAddr, hk]
    exact CNumber.strtoull_pyStr (n := p.base + t.off) (by omega)
  simp only [wovenConfig_eq, BakedConfig.slots, Config.fromEnv, SchedPlane.slots,
    haddr _ .order horder, haddr _ .ctrl hctrl, haddr _ .timer htimer, haddr _ .queue hqueue, Table.off]

/-- **The bound is the capacity**, or the default for a plane of no rows. -/
theorem wovenConfig_maxTasks (hcap : p.N ≤ maxTasksLimit) :
    (p.wovenConfig ctx plugin os).maxTasks = if p.N = 0 then 4096 else p.N := by
  have henv := (p.bakeCall ctx plugin os).maxTasks_env
  simp only [maxTasksLimit] at hcap
  have hatoi : envInt (p.bakeCall ctx plugin os).bakedEnv "SCHED_MAX_TASKS" 4096 = p.N := by
    rw [envInt, henv]
    exact CNumber.atoi_pyStr (n := p.N) (by omega)
  simp only [wovenConfig_eq, Config.fromEnv, envMaxTasks, hatoi]
  by_cases hzero : p.N = 0
  · simp [hzero]
  · rw [if_pos ⟨by omega, by omega⟩, if_neg hzero, Int.toNat_natCast]

/-- The order remap follows an address: its lever is on, and its channel is the device one or its variable
    is inherited. -/
theorem wovenConfig_orderIndirect :
    ((p.wovenConfig ctx plugin os).indirect = true ∧
        (p.wovenConfig ctx plugin os).orderIndirect = true) ↔
      os.present "SCHED_NO_INDIRECT" = false ∧
        (p.orderDev.isSome = true ∨ os.present "SCHED_ORDER_INDIRECT" = true) := by
  have horder : (p.bakeCall ctx plugin os).bakedEnv "SCHED_ORDER_INDIRECT"
      = if p.orderDev.isSome then some "1" else os "SCHED_ORDER_INDIRECT" :=
    bakedEnv_order (p.bakeCall ctx plugin os)
  have hlever : (p.bakeCall ctx plugin os).bakedEnv "SCHED_NO_INDIRECT" = os "SCHED_NO_INDIRECT" :=
    bakedEnv_of_notMem _ (by decide)
  simp only [wovenConfig_eq, Config.fromEnv, Env.present, horder, hlever]
  cases p.orderDev <;> simp

end

/-! ## The kernel beside the host -/

/-- A host call, an operation of the kernel, or queued writes that reach a table's buffer. -/
inductive WovenEvent
  | call (c : PlaneCall)
  | device (op : DeviceOp)
  | landed (t : Table)
  deriving DecidableEq, Repr

def WovenEvent.table : WovenEvent → Option Table
  | call c => some c.table
  | device op => op.table
  | landed t => some t

/-- One event. What a queued write brings, and when, is left open. -/
inductive WovenStep (B : BakedConfig) : PlaneMem → WovenEvent → PlaneMem → Prop
  | call {s s' : PlaneMem} {c : PlaneCall} (hstep : PlaneStep s c s') : WovenStep B s (.call c) s'
  | device {s : PlaneMem} (op : DeviceOp) : WovenStep B s (.device op) ⟨s.plane, op.exec B s.mem⟩
  | landed {s : PlaneMem} {t : Table} {m : ByteMem}
      (hland : AgreesOff (s.plane.buffer t).toList s.mem m) : WovenStep B s (.landed t) ⟨s.plane, m⟩

/-- Events of the host and the kernel in any order. -/
inductive WovenRuns (B : BakedConfig) (s : PlaneMem) : List WovenEvent → PlaneMem → Prop
  | nil : WovenRuns B s [] s
  | concat {s₁ s₂ : PlaneMem} {events : List WovenEvent} {e : WovenEvent}
      (hrun : WovenRuns B s events s₁) (hstep : WovenStep B s₁ e s₂) : WovenRuns B s (events ++ [e]) s₂

/-- The kernel's bound is the capacity; in every run beside it the tables' windows lie in the arena and
    the tables apart, and every write of a call, every access of the kernel and every change of the
    memory is in its own table. -/
structure KeepsWindows (B : BakedConfig) (s₀ : PlaneMem) : Prop where
  bound : B.maxTasks = s₀.plane.N
  arena {events : List WovenEvent} {s : PlaneMem} (hrun : WovenRuns B s₀ events s) (t : Table) :
    Span.Covers ⟨s₀.plane.base, arenaBytes⟩ (s.plane.window t).start (s.plane.window t).size
  apart {events : List WovenEvent} {s : PlaneMem} {t t' : Table} (hrun : WovenRuns B s₀ events s)
    (hne : t ≠ t') : ∀ x ∈ s.plane.spans t, ∀ y ∈ s.plane.spans t', x.Apart y
  host {events : List WovenEvent} {s : PlaneMem} {c : PlaneCall} {p : SchedPlane} {w : List MemOp}
    (hrun : WovenRuns B s₀ events s) (halloc : s.plane.Allocates c)
    (hcall : s.plane.perform c = some (p, w)) :
    ∀ o ∈ w, CoveredBy (p.spans c.table) o.addr o.bytes.length
  device {events : List WovenEvent} {s : PlaneMem} (hrun : WovenRuns B s₀ events s) (op : DeviceOp) :
    ∀ x ∈ op.accesses B s.mem, CoveredBy (s.plane.spans x.table) x.addr x.width
  elsewhere {events : List WovenEvent} {s s' : PlaneMem} {e : WovenEvent} {t : Table}
    (hrun : WovenRuns B s₀ events s) (hstep : WovenStep B s e s') (hne : e.table ≠ some t) :
    ∀ x ∈ s'.plane.spans t, ∀ a, x.Covers a 1 → s'.mem a = s.mem a

/-! ## The kernel and the plane fit -/

/-- The kernel's slots and bound are the plane's, and the channel words that it follows lead to the
    buffers. -/
structure Fits (B : BakedConfig) (s : PlaneMem) : Prop where
  laid : s.plane.Laid
  base : 0 < s.plane.base
  slots : B.slots = s.plane.slots
  bound : B.maxTasks = s.plane.N
  indirect : B.indirect = true → B.orderIndirect = true → s.plane.orderDev.isSome = true
  order : s.plane.ChannelOk s.mem
  timer : B.timerIndirect = true →
    s.mem.load64 (s.plane.base + timerOff) = s.plane.timerDev.getD 0

variable {B : BakedConfig} {s s' : PlaneMem} {e : WovenEvent} {events : List WovenEvent}

/-- The first word of a window. -/
theorem load_window {p : SchedPlane} {t : Table} {m m' : ByteMem}
    (hsame : ∀ a, (p.window t).Covers a 1 → m' a = m a) :
    m'.load64 (p.base + t.off) = m.load64 (p.base + t.off) := by
  refine ByteMem.load_congr fun a hlo hhi => hsame a ⟨hlo, ?_⟩
  simp only [SchedPlane.window, windowBytes]
  omega

namespace Fits

theorem lead (h : Fits B s) : ChannelsLead B s.plane s.mem := by
  refine ⟨fun hind horder => ?_, h.timer⟩
  obtain ⟨d, hd⟩ := Option.isSome_iff_exists.1 (h.indirect hind horder)
  exact ⟨d, hd, h.order d hd⟩

theorem covered (h : Fits B s) (op : DeviceOp) :
    ∀ x ∈ op.accesses B s.mem, CoveredBy (s.plane.spans x.table) x.addr x.width :=
  op.covered h.laid h.base h.slots h.bound.le h.lead

theorem device_order (h : Fits B s) (op : DeviceOp) : s.plane.ChannelOk (op.exec B s.mem) := by
  intro d hd
  have hne : op.table ≠ some .order := by cases op <;> simp [DeviceOp.table]
  refine (load_window (t := .order) fun a ha => ?_).trans (h.order d hd)
  exact DeviceOp.elsewhere h.laid h.base h.slots h.bound.le h.lead hne List.mem_cons_self ha

theorem device_timer (h : Fits B s) (op : DeviceOp) (hind : B.timerIndirect = true) :
    (op.exec B s.mem).load64 (s.plane.base + timerOff) = s.plane.timerDev.getD 0 := by
  have hword := h.timer hind
  by_cases hop : op.table = some .timer
  · cases op with
    | timer off task cycles =>
        have hbase : B.slots.timer.base = s.plane.base + timerOff := by
          rw [h.slots]
          exact RtSlot.base_baked (by have := h.base; omega)
        rw [← hword, ← hbase]
        refine load_emitTimer_of_apart off task cycles hind fun hne htask => ?_
        rw [hbase, hword] at hne ⊢
        rcases he : s.plane.timerDev with _ | e
        · rw [he] at hne
          exact absurd rfl hne
        · have hmem : (⟨e, 8 * s.plane.N⟩ : Span) ∈ s.plane.buffer .timer := by
            rw [SchedPlane.buffer, he]
            rfl
          have hapart := h.laid.window_apart .timer hmem
          have hbound := h.bound
          simp only [SchedPlane.window, Span.Apart, Table.off, windowBytes] at hapart
          simp only [Option.getD_some]
          omega
    | _ => cases hop
  · refine (load_window (t := .timer) fun a ha => ?_).trans hword
    exact DeviceOp.elsewhere h.laid h.base h.slots h.bound.le h.lead hop List.mem_cons_self ha

/-- **Every event keeps the fit.** -/
theorem step (h : Fits B s) (hstep : WovenStep B s e s') : Fits B s' := by
  cases hstep with
  | call hstep =>
      obtain ⟨hlaid, hN, hbase⟩ := hstep.laid h.laid
      refine
        { laid := hlaid, base := hbase ▸ h.base, slots := ?_, bound := h.bound.trans hN.symm
          indirect := fun hind horder => hstep.orderDev_isSome (h.indirect hind horder)
          order := hstep.channelOk h.laid h.order
          timer := fun hind => hstep.timerWord h.laid (h.timer hind) }
      rw [h.slots, SchedPlane.slots, SchedPlane.slots, hbase]
  | device op =>
      exact ⟨h.laid, h.base, h.slots, h.bound, h.indirect, h.device_order op, h.device_timer op⟩
  | landed hland =>
      have hsame : ∀ t a, (s.plane.window t).Covers a 1 → _ = s.mem a := fun t a ha =>
        hland.apply (fun x hx => (h.laid.window_apart t (Option.mem_toList.1 hx)).symm) ha
      refine ⟨h.laid, h.base, h.slots, h.bound, h.indirect, fun d hd => ?_, fun hind => ?_⟩
      · exact (load_window (t := .order) (hsame .order)).trans (h.order d hd)
      · exact (load_window (t := .timer) (hsame .timer)).trans (h.timer hind)

theorem runs (h : Fits B s) (hrun : WovenRuns B s events s') :
    Fits B s' ∧ s'.plane.base = s.plane.base := by
  induction hrun with
  | nil => exact ⟨h, rfl⟩
  | concat hrun hstep ih =>
      obtain ⟨hfits, hbase⟩ := ih
      refine ⟨hfits.step hstep, ?_⟩
      cases hstep with
      | call hstep => exact (hstep.laid hfits.laid).2.2.trans hbase
      | device op => exact hbase
      | landed hland => exact hbase

theorem elsewhere (h : Fits B s) (hstep : WovenStep B s e s') {t : Table} (hne : e.table ≠ some t)
    {x : Span} (hx : x ∈ s'.plane.spans t) {a : ℕ} (ha : x.Covers a 1) : s'.mem a = s.mem a := by
  cases hstep with
  | call hstep => exact hstep.elsewhere h.laid (fun he => hne (congrArg some he.symm)) hx ha
  | device op => exact DeviceOp.elsewhere h.laid h.base h.slots h.bound.le h.lead hne hx ha
  | landed hland =>
      rename_i t' m
      have hspans : AgreesOff (s.plane.spans t') s.mem m := hland.mono (List.subset_cons_self _ _)
      exact hspans.apply
        (fun y hy => h.laid.spans_apart (fun he => hne (congrArg some he)) y hy x hx) ha

/-- **A kernel that fits keeps the windows.** -/
theorem keepsWindows (h : Fits B s) : KeepsWindows B s where
  bound := h.bound
  arena hrun t := by
    obtain ⟨-, hbase⟩ := h.runs hrun
    have hoff := t.off_le
    simp only [SchedPlane.window, Span.Covers, hbase]
    omega
  apart hrun hne := (h.runs hrun).1.laid.spans_apart hne
  host hrun halloc hcall :=
    SchedPlane.performs_covered ((h.runs hrun).1.laid.perform halloc hcall) hcall
  device hrun op := (h.runs hrun).1.covered op
  elsewhere hrun hstep hne x hx a ha := (h.runs hrun).1.elsewhere hstep hne hx ha

end Fits

/-! ## From a new plane -/

variable {N base : ℕ} {p : SchedPlane} {w : List MemOp} {calls : List PlaneCall}

/-- The arena is zeroed, and the order table and the control block end below the timer's window. -/
theorem timerWord_create (hcreate : SchedPlane.create N base = some (p, w)) (m : ByteMem) :
    (applyOps m w).load64 (base + timerOff) = 0 := by
  obtain ⟨hN, w', hpush, hops⟩ := SchedPlane.push_of_create hcreate
  have hcall : ({ N := N, base := base } : SchedPlane).perform (.method .push) = some (p, w') := hpush
  have hreset : ({ N := N, base := base } : SchedPlane).perform (.method (.setOrder (List.range N)))
      = some ({ N := N, base := base }, SchedPlane.resetOrder { N := N, base := base }) := rfl
  rw [hops]
  refine (SchedPlane.load_window_elsewhere (t := .timer) (SchedPlane.laid_create hcreate) hcall
    (show Table.timer ≠ Table.ctrl by decide)).trans ?_
  refine (SchedPlane.load_window_elsewhere (t := .timer) (SchedPlane.laid_direct hN base) hreset
    (show Table.timer ≠ Table.order by decide)).trans ?_
  exact ByteMem.load_store_zeros_of_mem m (Nat.le_add_right _ _)
    (by simp only [Table.off, timerOff, arenaBytes]; omega)

/-- What holds of the plane that is baked, whatever is woven. -/
theorem channels_of_runs (hcreate : SchedPlane.create N base = some (p, w)) (m : ByteMem)
    (hrun : PlaneRuns ⟨p, applyOps m w⟩ calls s) :
    s.plane.Laid ∧ s.plane.N = N ∧ s.plane.base = base ∧ s.plane.ChannelOk s.mem ∧
      s.mem.load64 (s.plane.base + timerOff) = s.plane.timerDev.getD 0 := by
  have hlayout := SchedPlane.sameLayout_create hcreate
  induction hrun with
  | nil =>
      refine ⟨SchedPlane.laid_create hcreate, hlayout.N, hlayout.base, ?_, ?_⟩
      · intro d hd
        rw [hlayout.orderDev] at hd
        cases hd
      · rw [hlayout.timerDev, hlayout.base]
        exact timerWord_create hcreate m
  | concat hrun hstep ih =>
      obtain ⟨hlaid, hcap, hbase, horder, htimer⟩ := ih
      obtain ⟨hlaid', hN', hbase'⟩ := hstep.laid hlaid
      exact ⟨hlaid', hN'.trans hcap, hbase'.trans hbase, hstep.channelOk hlaid horder,
        hstep.timerWord hlaid htimer⟩

/-! ## Entries as an address -/

/-- The first word of a direct table whose first entry was just set. -/
theorem load_setOrder_singleton {p : SchedPlane} (hdirect : p.orderDev = none) (hpos : 0 < p.N)
    (m : ByteMem) {x : ℕ} (hx : x < 2 ^ 32) :
    (applyOps m (p.setOrder [x])).load64 (p.base + orderOff)
      = x + 2 ^ 32 * m.load (p.base + orderOff + 4) 4 := by
  have htake : [x].take p.N = [x] := List.take_of_length_le (by rw [List.length_singleton]; omega)
  have hstore : applyOps m (p.setOrder [x])
      = m.store (p.base + orderOff) (ByteMem.toBytes 4 x) := by
    rw [SchedPlane.applyOps_setOrder, SchedPlane.tableBase_none hdirect, htake]
    rfl
  rw [hstore]
  refine (ByteMem.load_add _ _ 4 4).trans ?_
  rw [ByteMem.load_store_toBytes, ByteMem.load_store_of_disjoint]
  · rw [Nat.mod_eq_of_lt (by omega)]
    rfl
  · right
    rw [ByteMem.length_toBytes]

/-- **The indirect layout over a direct table leaves the window.** Of two first entries that are further
    apart than the window is wide, one leads out of it. -/
theorem not_keepsWindows_of_direct (hbase : 0 < s.plane.base) (hslots : B.slots = s.plane.slots)
    (hpos : 0 < s.plane.N) (hdirect : s.plane.orderDev = none) (hind : B.indirect = true)
    (horder : B.orderIndirect = true) : ¬ KeepsWindows B s := by
  intro h
  have hslot : rtBuffer s.plane.slots.taskOrder = (s.plane.base + orderOff, true) :=
    rtBuffer_baked (by omega)
  have havail : rtAvailable s.plane.slots.taskOrder = true :=
    (RtSlot.armed_baked (by omega)).available
  have hbound : 0 < B.maxTasks := h.bound ▸ hpos
  -- the second word of the table, which the calls leave
  obtain ⟨u, hu⟩ : ∃ u, s.mem.load (s.plane.base + orderOff + 4) 4 = u := ⟨_, rfl⟩
  have hentry : ∀ x < 2 ^ 32, 0 < x →
      s.plane.base ≤ x + 2 ^ 32 * u ∧ x + 2 ^ 32 * u ≤ s.plane.base + windowBytes := by
    intro x hx hne
    have hstep : PlaneStep s (.method (.setOrder [x])) ⟨s.plane, applyOps s.mem (s.plane.setOrder [x])⟩ :=
      .performed trivial rfl
    have hrun : WovenRuns B s ([] ++ [.call (.method (.setOrder [x]))]) _ :=
      .concat .nil (.call hstep)
    have hword := load_setOrder_singleton hdirect hpos s.mem hx
    rw [hu] at hword
    obtain ⟨ptr, hptr⟩ : ∃ ptr, x + 2 ^ 32 * u = ptr := ⟨_, rfl⟩
    rw [hptr] at hword ⊢
    have hmem : (⟨.order, ptr + 4 * 0, 4⟩ : Access)
        ∈ DeviceOp.accesses B (applyOps s.mem (s.plane.setOrder [x])) (.weaveTask 1 0) := by
      have hne : ptr ≠ 0 := by omega
      simp [DeviceOp.accesses, orderEntryAccesses, hslots, hslot, havail, hind, horder, hbound, hword,
        hne]
    obtain ⟨t, ht, hcovers⟩ := h.device hrun (.weaveTask 1 0) _ hmem
    simp only [SchedPlane.spans, SchedPlane.buffer, hdirect, Option.map_none, Option.toList_none,
      List.mem_singleton] at ht
    subst ht
    simp only [SchedPlane.window, Table.off, orderOff, Span.Covers] at hcovers
    omega
  have hlow := hentry 1 (by decide) (by decide)
  have hhigh := hentry (2 ^ 31) (by decide) (by decide)
  simp only [windowBytes] at hlow hhigh
  omega

/-! ## When the windows are kept -/

/-- **The windows are kept exactly when the plane has rows and the order layout is the plane's own.** For
    every capacity that the constructor takes, every run of calls before the bake and every environment
    that it starts from: the kernel's bound is the capacity and, in every run beside the kernel, every
    access is in its own table and no table changes by an event of another, if and only if the capacity
    is not 0 and, where the order table is in the arena, either `SCHED_ORDER_INDIRECT` was not inherited
    or `SCHED_NO_INDIRECT` was. The mapping is not at address 0 and ends below 2^64. -/
theorem keepsWindows_iff (ctx : ArmContext) (plugin : String) (os : Env) (hbase : 0 < base)
    (hfit : base + arenaBytes ≤ 2 ^ 64) (hcreate : SchedPlane.create N base = some (p, w)) (m : ByteMem)
    (hrun : PlaneRuns ⟨p, applyOps m w⟩ calls s) :
    KeepsWindows (s.plane.wovenConfig ctx plugin os) s ↔
      0 < N ∧ (s.plane.orderDev.isSome = true ∨ os.present "SCHED_ORDER_INDIRECT" = false ∨
        os.present "SCHED_NO_INDIRECT" = true) := by
  obtain ⟨hlaid, rfl, rfl, horder, htimer⟩ := channels_of_runs hcreate m hrun
  have hslots := wovenConfig_slots ctx plugin os hfit
  have hmaxTasks := wovenConfig_maxTasks ctx plugin os hlaid.cap
  have hindirect := wovenConfig_orderIndirect (p := s.plane) ctx plugin os
  constructor
  · intro h
    have hpos : 0 < s.plane.N := by
      have hbound := hmaxTasks.symm.trans h.bound
      split at hbound <;> omega
    refine ⟨hpos, ?_⟩
    by_contra hnone
    simp only [not_or, Bool.not_eq_true, Bool.not_eq_false] at hnone
    obtain ⟨hdirect, hinherited, hlever⟩ := hnone
    obtain ⟨hind, hlayout⟩ := hindirect.2 ⟨hlever, .inr hinherited⟩
    rw [Option.isSome_eq_false_iff, Option.isNone_iff_eq_none] at hdirect
    exact not_keepsWindows_of_direct hbase hslots hpos hdirect hind hlayout h
  · rintro ⟨hpos, hlayout⟩
    refine Fits.keepsWindows
      { laid := hlaid, base := hbase, slots := hslots, bound := ?_, indirect := fun hind hord => ?_
        order := horder, timer := fun _ => htimer }
    · rw [hmaxTasks, if_neg hpos.ne']
    · obtain ⟨hlever, hsome⟩ := hindirect.1 ⟨hind, hord⟩
      rcases hlayout with hsome' | hclean | hoff
      · exact hsome'
      · exact hsome.resolve_right (by rw [hclean]; exact Bool.false_ne_true)
      · rw [hoff] at hlever
        cases hlever

/-- A plane of 256 rows at the canonical address, in a clean environment. -/
theorem keepsWindows_clean :
    ∃ p w, SchedPlane.create 256 0x5C0000000000 = some (p, w) ∧
      KeepsWindows (p.wovenConfig sampleContext "p.so" fun _ => none) ⟨p, applyOps ByteMem.zeroed w⟩ := by
  obtain ⟨p, w, hcreate⟩ := SchedPlane.exists_create (show 256 ≤ maxTasksLimit by decide) 0x5C0000000000
  exact ⟨p, w, hcreate, (keepsWindows_iff sampleContext "p.so" (fun _ => none) (by decide) (by decide)
    hcreate ByteMem.zeroed .nil).2 ⟨by decide, .inr (.inl rfl)⟩⟩

/-- A plane of no rows: the kernel's bound is the default. -/
theorem not_keepsWindows_empty :
    ∃ p w, SchedPlane.create 0 0x5C0000000000 = some (p, w) ∧ p.N = 0 ∧
      (p.wovenConfig sampleContext "p.so" fun _ => none).maxTasks = 4096 ∧
      ¬ KeepsWindows (p.wovenConfig sampleContext "p.so" fun _ => none)
        ⟨p, applyOps ByteMem.zeroed w⟩ := by
  obtain ⟨p, w, hcreate⟩ := SchedPlane.exists_create (show 0 ≤ maxTasksLimit by decide) 0x5C0000000000
  obtain ⟨hlaid, hN, -⟩ := channels_of_runs hcreate ByteMem.zeroed .nil
  have hbound : (p.wovenConfig sampleContext "p.so" fun _ => none).maxTasks = 4096 := by
    rw [wovenConfig_maxTasks _ _ _ hlaid.cap, if_pos hN]
  refine ⟨p, w, hcreate, hN, hbound, fun h => ?_⟩
  have hcap : 4096 = 0 := hbound.symm.trans (h.bound.trans hN)
  omega

end SchedPass
