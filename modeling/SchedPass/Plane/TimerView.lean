import SchedPass.Plane.Consistent
import SchedPass.Weave.Timer

set_option autoImplicit false

/-! # The timer side of a plane

`TimerView` is the published timer gate, the gate that the next `push` will publish, and the cycle
rows. As in `View.lean`, each method has a one-line meaning on views and the bytes refine it
(`timerView_exec`); but a write can be queued on the stream, so the meaning here is that of the
immediate writes, and the queued ones are the clear of device rows or spare the timer altogether. -/

namespace SchedPass

/-! ## Immediate and queued writes -/

def immediate (w : List MemOp) : List MemOp := w.filter fun o => !o.queued

def deferred (w : List MemOp) : List MemOp := w.filter fun o => o.queued

/-! ## Views -/

/-- The gate in a flags word: on unless bit 0 is set. -/
def timerOn (flags : ℕ) : Bool := flags &&& flagTimerOff == 0

theorem timerOn_eq_not_testBit (flags : ℕ) : timerOn flags = !flags.testBit 0 := by
  simp only [timerOn, flagTimerOff, Nat.and_one_is_mod, Nat.testBit_zero]
  rcases Nat.mod_two_eq_zero_or_one flags with h | h <;> simp [h]

/-- The published gate, the mirror's, and the cycle rows (0 from the capacity on). -/
@[ext]
structure TimerView where
  on : Bool
  mirrorOn : Bool
  row : ℕ → ℕ

/-- A method's immediate meaning; `device` says that the rows are in a device buffer. -/
def TimerView.exec (device : Bool) (v : TimerView) : PlaneOp → TimerView
  | .setTimerEnabled on => { v with mirrorOn := on }
  | .push => { v with on := v.mirrorOn }
  | .clearTimer => if device then v else { v with row := fun _ => 0 }
  | .setOrder _ | .setOrderSize _ | .setNumTasks _ | .setRow .. => v

namespace SchedPlane

/-- Where the cycle rows live. -/
def rowsBase (p : SchedPlane) : ℕ := p.timerDev.getD (p.base + timerOff)

def mirrorOn (p : SchedPlane) : Bool := timerOn (p.ctrlHost.load32 ctrlFlagsOff)

def timerView (p : SchedPlane) (m : ByteMem) : TimerView where
  on := timerOn (m.load32 (p.base + ctrlOff + ctrlFlagsOff))
  mirrorOn := p.mirrorOn
  row := fun t => if t < p.N then m.load64 (p.rowsBase + 8 * t) else 0

/-- The timer word points at the device rows. -/
def TimerChannelOk (p : SchedPlane) (m : ByteMem) : Prop :=
  ∀ e ∈ p.timerDev, e ≠ 0 ∧ m.load64 (p.base + timerOff) = e

/-- The write of `clear_timer`. -/
def rowsClear (p : SchedPlane) : MemOp := ⟨p.timerDev.isSome, p.rowsBase, List.replicate (8 * p.N) 0⟩

/-- `read_timer`. -/
def readTimer (p : SchedPlane) (m : ByteMem) : List ℕ :=
  (List.range p.N).map fun t => m.load64 (p.rowsBase + 8 * t)

/-- The write touches neither the flags word nor the rows, nor the timer word of a device channel. -/
structure SparesTimer (p : SchedPlane) (o : MemOp) : Prop where
  flags : o.addr + o.bytes.length ≤ p.base + ctrlOff + ctrlFlagsOff ∨
    p.base + ctrlOff + ctrlFlagsOff + 4 ≤ o.addr
  rows : o.addr + o.bytes.length ≤ p.rowsBase ∨ p.rowsBase + 8 * p.N ≤ o.addr
  channel : p.timerDev.isSome = true → SparesWord (p.base + timerOff) o

variable {p p' : SchedPlane} {m : ByteMem} {w : List MemOp}

theorem rowsBase_none (h : p.timerDev = none) : p.rowsBase = p.base + timerOff := by
  rw [rowsBase, h]
  rfl

theorem rowsBase_some {e : ℕ} (h : p.timerDev = some e) : p.rowsBase = e := by
  rw [rowsBase, h]
  rfl

theorem clearTimer_eq (p : SchedPlane) : p.clearTimer = [p.rowsClear] := by
  cases h : p.timerDev with
  | none => simp [clearTimer, rowsClear, rowsBase, h]
  | some e => simp [clearTimer, rowsClear, rowsBase, h]

/-! ## Frames -/

/-- The rows lie apart from the arena below the timer window. -/
theorem Laid.rows_window (h : p.Laid) :
    p.rowsBase + 8 * p.N ≤ p.base ∨ p.base + timerOff ≤ p.rowsBase := by
  cases he : p.timerDev with
  | none =>
      rw [rowsBase_none he]
      exact Or.inr le_rfl
  | some e =>
      rw [rowsBase_some he]
      have hout := h.timer e he
      simp only [OutsideArena, arenaBytes, timerOff] at hout ⊢
      omega

/-- A write below the timer window that spares the flags spares the timer. -/
theorem Laid.sparesTimer (h : p.Laid) {o : MemOp} (hlo : p.base ≤ o.addr)
    (hhi : o.addr + o.bytes.length ≤ p.base + timerOff)
    (hflags : o.addr + o.bytes.length ≤ p.base + ctrlOff + ctrlFlagsOff ∨
      p.base + ctrlOff + ctrlFlagsOff + 4 ≤ o.addr) : p.SparesTimer o := by
  have hwin := h.rows_window
  refine ⟨hflags, ?_, fun _ => Or.inl hhi⟩
  omega

theorem sparesTimer_setOrder (h : p.Laid) (tasks : List ℕ) :
    ∀ o ∈ p.setOrder tasks, p.SparesTimer o := by
  intro o ho
  have hcap := h.cap
  have hlen : (tasks.take (min tasks.length p.N)).length ≤ p.N := by
    rw [List.length_take]
    omega
  simp only [maxTasksLimit] at hcap
  cases hd : p.orderDev with
  | none =>
      simp only [setOrder, hd, List.mem_singleton] at ho
      subst ho
      refine h.sparesTimer ?_ ?_ (Or.inl ?_) <;>
        simp only [ByteMem.length_wordsToBytes, orderOff, ctrlOff, ctrlFlagsOff, timerOff] <;> omega
  | some d =>
      simp only [setOrder, hd, List.mem_singleton] at ho
      subst ho
      have hout := h.order d hd
      simp only [OutsideArena, arenaBytes] at hout
      refine ⟨?_, ?_, fun _ => ?_⟩
      · simp only [ByteMem.length_wordsToBytes, ctrlOff, ctrlFlagsOff]
        omega
      · cases he : p.timerDev with
        | none =>
            rw [rowsBase_none he]
            simp only [ByteMem.length_wordsToBytes, timerOff]
            omega
        | some e =>
            rw [rowsBase_some he]
            have hapart := h.apart d hd e he
            simp only [ByteMem.length_wordsToBytes]
            omega
      · simp only [SparesWord, ByteMem.length_wordsToBytes, timerOff]
        omega

/-- A sparing write does not show. -/
theorem timerView_apply {o : MemOp} (h : p.SparesTimer o) :
    p.timerView (o.apply m) = p.timerView m := by
  ext t
  · simp only [timerView, MemOp.apply]
    rw [ByteMem.load32_store_of_disjoint m _ _ h.flags.symm]
  · rfl
  · simp only [timerView]
    split
    · have hrows := h.rows
      exact ByteMem.load_store_of_disjoint m _ _ (by omega)
    · rfl

theorem timerView_applyOps (h : ∀ o ∈ w, p.SparesTimer o) :
    p.timerView (applyOps m w) = p.timerView m := by
  induction w generalizing m with
  | nil => rfl
  | cons o w ih =>
      have hrest := ih (m := o.apply m) fun o' ho' => h o' (List.mem_cons_of_mem o ho')
      exact hrest.trans (timerView_apply (h o List.mem_cons_self))

/-- The clear zeroes the rows. -/
theorem timerView_rowsClear (h : p.Laid) :
    p.timerView (p.rowsClear.apply m) = { p.timerView m with row := fun _ => 0 } := by
  have hwin := h.rows_window
  have hcap := h.cap
  simp only [maxTasksLimit] at hcap
  ext t
  · simp only [timerView, MemOp.apply, rowsClear]
    rw [ByteMem.load32_store_of_disjoint]
    simp only [List.length_replicate, ctrlOff, ctrlFlagsOff, timerOff] at hwin ⊢
    omega
  · rfl
  · simp only [timerView]
    split
    · next ht =>
        exact ByteMem.load_store_zeros_of_mem (a := p.rowsBase) m (Nat.le_add_right _ _) (by omega)
    · rfl

theorem SameLayout.rowsBase (h : p.SameLayout p') : p'.rowsBase = p.rowsBase := by
  rw [SchedPlane.rowsBase, SchedPlane.rowsBase, h.timerDev, h.base]

theorem SameLayout.rowsClear (h : p.SameLayout p') : p'.rowsClear = p.rowsClear := by
  rw [SchedPlane.rowsClear, SchedPlane.rowsClear, h.timerDev, h.rowsBase, h.N]

theorem SameLayout.timerView (h : p.SameLayout p') (m : ByteMem) :
    p'.timerView m = { p.timerView m with mirrorOn := p'.mirrorOn } := by
  simp only [SchedPlane.timerView, h.base, h.N, h.rowsBase]

theorem SparesTimer.congr {o : MemOp} (ho : p.SparesTimer o) (h : p.SameLayout p') :
    p'.SparesTimer o := by
  obtain ⟨hflags, hrows, hchan⟩ := ho
  refine ⟨?_, ?_, fun hdev => ?_⟩
  · rwa [h.base]
  · rwa [h.rowsBase, h.N]
  · rw [h.base]
    exact hchan (h.timerDev ▸ hdev)

theorem TimerChannelOk.congr (hchan : p.TimerChannelOk m) (h : p.SameLayout p') :
    p'.TimerChannelOk m := by
  rw [TimerChannelOk, h.timerDev, h.base]
  exact hchan

theorem TimerChannelOk.apply {o : MemOp} (hchan : p.TimerChannelOk m)
    (h : p.timerDev.isSome = true → SparesWord (p.base + timerOff) o) :
    p.TimerChannelOk (o.apply m) := by
  intro e he
  obtain ⟨hne, hword⟩ := hchan e he
  have hspares := h (by rw [Option.mem_def.1 he]; rfl)
  exact ⟨hne, (ByteMem.load_store_of_disjoint m _ _ hspares.symm).trans hword⟩

theorem TimerChannelOk.applyOps (hchan : p.TimerChannelOk m)
    (h : p.timerDev.isSome = true → ∀ o ∈ w, SparesWord (p.base + timerOff) o) :
    p.TimerChannelOk (applyOps m w) := by
  intro e he
  obtain ⟨hne, hword⟩ := hchan e he
  refine ⟨hne, ?_⟩
  rw [load64_applyOps (h (by rw [Option.mem_def.1 he]; rfl))]
  exact hword

/-- The clear of device rows spares the timer word. -/
theorem Laid.sparesWord_rowsClear (h : p.Laid) (hdev : p.timerDev.isSome = true) :
    SparesWord (p.base + timerOff) p.rowsClear := by
  obtain ⟨e, he⟩ := Option.isSome_iff_exists.1 hdev
  have hout := h.timer e he
  simp only [SparesWord, rowsClear, rowsBase_some he, List.length_replicate, OutsideArena, arenaBytes,
    timerOff] at hout ⊢
  omega

/-! ## Refinement -/

theorem timerOn_setTimerEnabled (flags : ℕ) (on : Bool) :
    timerOn (Nat.ldiff flags flagTimerOff ||| if on then 0 else flagTimerOff) = on := by
  rw [timerOn_eq_not_testBit, Nat.testBit_or, Nat.testBit_ldiff]
  cases on <;> simp [flagTimerOff]

theorem immediate_clearTimer (p : SchedPlane) :
    immediate p.clearTimer = if p.timerDev.isSome then [] else [p.rowsClear] := by
  rw [clearTimer_eq]
  cases he : p.timerDev <;> simp [immediate, rowsClear, he]

theorem deferred_clearTimer (p : SchedPlane) :
    deferred p.clearTimer = if p.timerDev.isSome then [p.rowsClear] else [] := by
  rw [clearTimer_eq]
  cases he : p.timerDev <;> simp [deferred, rowsClear, he]

/-- Only a push and a clear touch the timer. -/
theorem exec_sparesTimer (h : p.Laid) {op : PlaneOp} (hexec : p.exec op = some (p', w))
    (hpush : op ≠ .push) (hclear : op ≠ .clearTimer) : ∀ o ∈ w, p.SparesTimer o := by
  cases op with
  | setOrder tasks =>
      cases hexec
      exact sparesTimer_setOrder h tasks
  | push => exact absurd rfl hpush
  | clearTimer => exact absurd rfl hclear
  | _ =>
      obtain ⟨p₁, -, heq⟩ := Option.map_eq_some_iff.1 hexec
      cases heq
      exact fun o ho => absurd ho List.not_mem_nil

theorem mirrorOn_exec {op : PlaneOp} (hexec : p.exec op = some (p', w)) :
    p'.mirrorOn = match op with
      | .setTimerEnabled on => on
      | _ => p.mirrorOn := by
  cases op with
  | setOrder tasks =>
      cases hexec
      rfl
  | clearTimer =>
      cases hexec
      rfl
  | push =>
      obtain ⟨host, hpack, heq⟩ := Option.map_eq_some_iff.1 hexec
      cases heq
      exact congrArg timerOn (packU32_load32 hpack (by decide))
  | setRow i q tau hint =>
      simp only [exec, setRow] at hexec
      split at hexec <;> cases hexec
      refine congrArg timerOn (ByteMem.load32_store_of_disjoint _ _ _ (Or.inl ?_))
      simp only [ctrlFlagsOff, ctrlRowsOff]
      omega
  | setTimerEnabled on =>
      obtain ⟨host, hpack, rfl, rfl⟩ := exists_packed hexec
      exact (congrArg timerOn (packU32_load32_self hpack)).trans (timerOn_setTimerEnabled _ on)
  | _ =>
      obtain ⟨host, hpack, rfl, rfl⟩ := exists_packed hexec
      exact congrArg timerOn (packU32_load32 hpack (by decide))

theorem timerView_push (h : p.Laid) (hpush : p.push = some (p', w)) :
    p'.timerView (applyOps m w) = { p.timerView m with on := p.mirrorOn } := by
  have hwin := h.rows_window
  have hcap := h.cap
  have hexec : p.exec .push = some (p', w) := hpush
  have hmirror : p'.mirrorOn = p.mirrorOn := mirrorOn_exec hexec
  obtain ⟨host, hpack, heq⟩ := Option.map_eq_some_iff.1 hpush
  cases heq
  have hbytes : p.ctrlBytes = 32 + 8 * p.N := rfl
  simp only [maxTasksLimit] at hcap
  simp only [timerOff] at hwin
  have happly : applyOps m [⟨false, p.base + ctrlOff + 4, host.slice 4 (p.ctrlBytes - 4)⟩,
      ⟨false, p.base + ctrlOff, host.slice 0 4⟩]
        = (m.store (p.base + ctrlOff + 4) (host.slice 4 (p.ctrlBytes - 4))).store (p.base + ctrlOff)
          (host.slice 0 4) := rfl
  rw [happly]
  ext t
  · -- the flags are at offset 20 of the body, which starts at offset 4
    have hbody : 20 + 4 ≤ p.ctrlBytes - 4 := by omega
    have hgen : p.base + ctrlOff + (host.slice 0 4).length ≤ p.base + ctrlOff + ctrlFlagsOff := by
      rw [ByteMem.length_slice]
      simp only [ctrlFlagsOff]
      omega
    simp only [timerView]
    rw [ByteMem.load32_store_of_disjoint _ _ _ (Or.inr hgen), ← hmirror]
    exact congrArg timerOn (ByteMem.load_store_slice m host (p.base + ctrlOff + 4) 4 hbody)
  · exact hmirror
  · simp only [timerView]
    split
    · rw [ByteMem.load64, ByteMem.load_store_of_disjoint, ByteMem.load_store_of_disjoint]
      · rfl
      · simp only [ByteMem.length_slice, ctrlOff, SchedPlane.rowsBase, hbytes] at hwin ⊢
        omega
      · simp only [ByteMem.length_slice, ctrlOff, SchedPlane.rowsBase] at hwin ⊢
        omega
    · rfl

/-- **A method does to the timer, at once, what it means on views.** -/
theorem timerView_exec (h : p.Laid) {op : PlaneOp} (hexec : p.exec op = some (p', w)) :
    p'.timerView (applyOps m (immediate w)) = (p.timerView m).exec p.timerDev.isSome op := by
  by_cases hpush : op = .push
  · subst hpush
    have himm : immediate w = w := by
      obtain ⟨host, -, heq⟩ := Option.map_eq_some_iff.1 hexec
      cases heq
      rfl
    rw [himm]
    exact timerView_push h hexec
  by_cases hclear : op = .clearTimer
  · subst hclear
    cases hexec
    rw [immediate_clearTimer]
    cases hdev : p.timerDev.isSome with
    | true => simp [TimerView.exec, applyOps]
    | false => exact timerView_rowsClear h
  · have hspares : ∀ o ∈ immediate w, p.SparesTimer o := fun o ho =>
      exec_sparesTimer h hexec hpush hclear o (List.mem_filter.1 ho).1
    rw [(sameLayout_exec hexec).timerView, timerView_applyOps hspares, mirrorOn_exec hexec]
    cases op with
    | push => exact absurd rfl hpush
    | clearTimer => exact absurd rfl hclear
    | _ => rfl

/-- Only a push changes the published gate, with all writes done. -/
theorem timerOn_exec (h : p.Laid) {op : PlaneOp} (hexec : p.exec op = some (p', w)) :
    (p'.timerView (applyOps m w)).on = match op with
      | .push => p.mirrorOn
      | _ => (p.timerView m).on := by
  have hspares : op ≠ .push → op ≠ .clearTimer →
      (p'.timerView (applyOps m w)).on = (p.timerView m).on := by
    intro hpush hclear
    rw [(sameLayout_exec hexec).timerView, timerView_applyOps (exec_sparesTimer h hexec hpush hclear)]
  cases op with
  | push => exact congrArg TimerView.on (timerView_push h hexec)
  | clearTimer =>
      cases hexec
      have happly : applyOps m p.clearTimer = p.rowsClear.apply m := by
        rw [clearTimer_eq]
        rfl
      have hon := congrArg TimerView.on (timerView_rowsClear (m := m) h)
      rwa [← happly] at hon
  | _ => exact hspares (by simp) (by simp)

/-- What a method queues, except the clear, spares the timer. -/
theorem deferred_exec (h : p.Laid) {op : PlaneOp} (hexec : p.exec op = some (p', w))
    (hclear : op ≠ .clearTimer) : ∀ o ∈ deferred w, p.SparesTimer o := by
  by_cases hpush : op = .push
  · subst hpush
    obtain ⟨host, -, heq⟩ := Option.map_eq_some_iff.1 hexec
    cases heq
    exact fun o ho => absurd ho (by simp [deferred])
  · exact fun o ho => exec_sparesTimer h hexec hpush hclear o (List.mem_filter.1 ho).1

theorem timerChannelOk_exec (h : p.Laid) {op : PlaneOp} (hexec : p.exec op = some (p', w))
    (hchan : p.TimerChannelOk m) : p'.TimerChannelOk (applyOps m (immediate w)) := by
  refine (hchan.applyOps fun hdev o ho => ?_).congr (sameLayout_exec hexec)
  by_cases hpush : op = .push
  · subst hpush
    have hcap := h.cap
    have hbytes : p.ctrlBytes = 32 + 8 * p.N := rfl
    simp only [maxTasksLimit] at hcap
    obtain ⟨host, -, heq⟩ := Option.map_eq_some_iff.1 hexec
    cases heq
    have hmem := (List.mem_filter.1 ho).1
    simp only [List.mem_cons, List.not_mem_nil, or_false] at hmem
    rcases hmem with rfl | rfl <;>
      simp only [SparesWord, ByteMem.length_slice, ctrlOff, timerOff, hbytes] <;> omega
  by_cases hclear : op = .clearTimer
  · subst hclear
    cases hexec
    rw [immediate_clearTimer, if_pos hdev] at ho
    exact absurd ho List.not_mem_nil
  · exact (exec_sparesTimer h hexec hpush hclear o (List.mem_filter.1 ho).1).channel hdev

/-! ## The kernel side -/

/-- The kernel carries the timer, with the plane's capacity and row layout. -/
structure BakesTimer (p : SchedPlane) (C : Config) : Prop where
  timer : C.timer = true
  maxTasks : C.maxTasks = p.N
  timerIndirect : C.timerIndirect = p.timerDev.isSome

/-- A block that enters latches the published gate. -/
theorem readTimerOff_slots (hbase : 0 < p.base) :
    readTimerOff p.slots m = !(p.timerView m).on := by
  have hctrlBase : p.slots.ctrl.base = p.base + ctrlOff := RtSlot.base_baked (by omega)
  rw [readTimerOff_of_armed (slots_armed hbase).2, hctrlBase]
  simp only [timerView, timerOn]
  rfl

variable {C : Config}

theorem emitTimer_slots (hbase : 0 < p.base) (hchan : p.TimerChannelOk m) (hC : p.BakesTimer C)
    {task : ℕ} (htask : task < p.N) (cycles : ℕ) :
    emitTimer C p.slots m false task cycles = atomicAdd64 m (p.rowsBase + 8 * task) cycles := by
  have hslot : p.slots.timer.base = p.base + timerOff := RtSlot.base_baked (by omega)
  refine emitTimer_on hC.timer (RtSlot.armed_baked (by omega)) ?_ ?_ (hC.maxTasks ▸ htask) cycles
  · rw [hslot, hC.timerIndirect]
    cases he : p.timerDev with
    | none => exact (rowsBase_none he).symm
    | some e => exact (hchan e he).2.trans (rowsBase_some he).symm
  · cases he : p.timerDev with
    | none =>
        rw [rowsBase_none he]
        omega
    | some e =>
        rw [rowsBase_some he]
        exact (hchan e he).1

/-- A block that returns with the gate on adds its cycles to its task's row. -/
theorem timerView_emitTimer (h : p.Laid) (hbase : 0 < p.base) (hchan : p.TimerChannelOk m)
    (hC : p.BakesTimer C) (task cycles : ℕ) :
    p.timerView (emitTimer C p.slots m false task cycles)
      = { p.timerView m with
          row := fun t => if t = task ∧ t < p.N then ((p.timerView m).row t + cycles) % 2 ^ 64
            else (p.timerView m).row t } ∧
      p.TimerChannelOk (emitTimer C p.slots m false task cycles) := by
  by_cases htask : task < p.N
  · have hwin := h.rows_window
    simp only [timerOff] at hwin
    rw [emitTimer_slots hbase hchan hC htask]
    refine ⟨?_, fun e he => ⟨(hchan e he).1, ?_⟩⟩
    · ext t
      · simp only [timerView]
        refine congrArg timerOn (load_atomicAdd64_of_disjoint _ _ ?_)
        simp only [ctrlOff, ctrlFlagsOff]
        omega
      · rfl
      · simp only [timerView]
        by_cases ht : t = task
        · subst ht
          simp only [htask, and_self, if_true]
          exact load64_atomicAdd64 _ _
        · simp only [ht, false_and, if_false]
          split
          · exact load_atomicAdd64_of_disjoint _ _ (by omega)
          · rfl
    · refine (load_atomicAdd64_of_disjoint _ _ ?_).trans (hchan e he).2
      have hout := h.timer e he
      rw [rowsBase_some he]
      simp only [OutsideArena, arenaBytes, timerOff] at hout ⊢
      omega
  · rw [emitTimer_of_le (hC.maxTasks ▸ not_lt.1 htask)]
    refine ⟨?_, hchan⟩
    ext t
    · rfl
    · rfl
    · have hne : ¬ (t = task ∧ t < p.N) := by
        rintro ⟨rfl, ht⟩
        exact htask ht
      simp only [if_neg hne]

end SchedPlane

end SchedPass
