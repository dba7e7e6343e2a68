import SchedPass.Plane.SchedPlane

set_option autoImplicit false

/-! # What a plane publishes

`PlaneView` is the plane as its readers see it: the order table, the published stamp, and the stamp
that the next `push` will publish. Each method has a one-line meaning on views (`PlaneView.exec`),
and on a well-laid-out plane the byte-level methods refine it (`view_exec`): table writes,
control-block writes and timer clears do not touch one another. -/

namespace SchedPass

/-! ## Layout -/

/-- `[a, a + len)` lies outside the arena at `base`. -/
def OutsideArena (base a len : ℕ) : Prop := a + len ≤ base ∨ base + arenaBytes ≤ a

instance (base a len : ℕ) : Decidable (OutsideArena base a len) := inferInstanceAs (Decidable (_ ∨ _))

namespace SchedPlane

/-- The capacity fits the table windows, and the device buffers lie outside the arena and apart. -/
structure Laid (p : SchedPlane) : Prop where
  cap : p.N ≤ maxTasksLimit
  order : ∀ d ∈ p.orderDev, OutsideArena p.base d (4 * p.N)
  timer : ∀ d ∈ p.timerDev, OutsideArena p.base d (8 * p.N)
  apart : ∀ d ∈ p.orderDev, ∀ e ∈ p.timerDev, d + 4 * p.N ≤ e ∨ e + 8 * p.N ≤ d

/-- Where the order table lives. -/
def tableBase (p : SchedPlane) : ℕ := p.orderDev.getD (p.base + orderOff)

/-- The channel word points at the device table. -/
def ChannelOk (p : SchedPlane) (m : ByteMem) : Prop :=
  ∀ d ∈ p.orderDev, m.load64 (p.base + orderOff) = d

/-- The two planes differ in their mirrors only. -/
structure SameLayout (p p' : SchedPlane) : Prop where
  N : p'.N = p.N
  base : p'.base = p.base
  timerDev : p'.timerDev = p.timerDev
  orderDev : p'.orderDev = p.orderDev

variable {p p' p'' : SchedPlane} {m : ByteMem} {w : List MemOp}

theorem SameLayout.refl (p : SchedPlane) : p.SameLayout p := ⟨rfl, rfl, rfl, rfl⟩

theorem SameLayout.trans (h : p.SameLayout p') (h' : p'.SameLayout p'') : p.SameLayout p'' :=
  ⟨h'.N.trans h.N, h'.base.trans h.base, h'.timerDev.trans h.timerDev, h'.orderDev.trans h.orderDev⟩

theorem SameLayout.symm (h : p.SameLayout p') : p'.SameLayout p :=
  ⟨h.N.symm, h.base.symm, h.timerDev.symm, h.orderDev.symm⟩

theorem Laid.congr (h : p.Laid) (hs : p.SameLayout p') : p'.Laid := by
  constructor
  · rw [hs.N]
    exact h.cap
  · rw [hs.N, hs.base, hs.orderDev]
    exact h.order
  · rw [hs.N, hs.base, hs.timerDev]
    exact h.timer
  · rw [hs.N, hs.orderDev, hs.timerDev]
    exact h.apart

end SchedPlane

/-! ## Views -/

/-- The order table (the identity from the capacity on), the published stamp, and the mirror's. -/
@[ext]
structure PlaneView where
  table : ℕ → ℕ
  stamp : ℕ
  mirror : ℕ

/-- A table after the words `ws` were written over its first entries. -/
def overlay (ws : List ℕ) (table : ℕ → ℕ) (k : ℕ) : ℕ := (ws[k]?.map (· % 2 ^ 32)).getD (table k)

/-- A method's meaning on views, for a plane of capacity `N`. -/
def PlaneView.exec (N : ℕ) (v : PlaneView) : PlaneOp → PlaneView
  | .setOrder tasks => { v with table := overlay (tasks.take N) v.table }
  | .setOrderSize n => { v with mirror := n }
  | .push => { v with stamp := v.mirror }
  | .setNumTasks _ | .setTimerEnabled _ | .setRow .. | .clearTimer => v

namespace SchedPlane

def view (p : SchedPlane) (m : ByteMem) : PlaneView where
  table := fun k => if k < p.N then tableWord m p.tableBase k else k
  stamp := loadOrderSize m (p.base + ctrlOff)
  mirror := p.ctrlHost.load32 ctrlOrderSizeOff

variable {p p' : SchedPlane} {m : ByteMem} {w : List MemOp}

/-! ## Frames -/

theorem packU32_eq_some {host host' : ByteMem} {off v : ℕ} (h : packU32 host off v = some host') :
    v < 2 ^ 32 ∧ host' = host.store off (ByteMem.toBytes 4 v) := by
  unfold packU32 at h
  split at h
  · next hv => exact ⟨hv, (Option.some.inj h).symm⟩
  · exact absurd h (by simp)

/-- Writing a mirror word leaves the other words. -/
theorem packU32_load32 {host host' : ByteMem} {off v : ℕ} (h : packU32 host off v = some host')
    {c : ℕ} (hc : c + 4 ≤ off ∨ off + 4 ≤ c) : host'.load32 c = host.load32 c := by
  rw [(packU32_eq_some h).2]
  exact ByteMem.load32_store_of_disjoint _ _ _ (by rwa [ByteMem.length_toBytes])

theorem packU32_load32_self {host host' : ByteMem} {off v : ℕ}
    (h : packU32 host off v = some host') : host'.load32 off = v := by
  rw [(packU32_eq_some h).2]
  exact ByteMem.load_store_toBytes_of_lt _ off 4 (packU32_eq_some h).1

theorem tableBase_none (h : p.orderDev = none) : p.tableBase = p.base := by
  rw [tableBase, h]
  rfl

theorem tableBase_some {d : ℕ} (h : p.orderDev = some d) : p.tableBase = d := by
  rw [tableBase, h]
  rfl

/-- The table lies apart from the arena's windows above it. -/
theorem Laid.table_window (h : p.Laid) {k : ℕ} (hk : k < p.N) :
    p.tableBase + 4 * k + 4 ≤ p.base + ctrlOff ∨ p.base + arenaBytes ≤ p.tableBase + 4 * k := by
  have hcap := h.cap
  simp only [ctrlOff, maxTasksLimit, arenaBytes] at hcap ⊢
  cases hd : p.orderDev with
  | none =>
      rw [tableBase_none hd]
      omega
  | some d =>
      rw [tableBase_some hd]
      have hout := h.order d hd
      simp only [OutsideArena, arenaBytes] at hout
      omega

/-- A write to a window above the order table's leaves the table. -/
theorem Laid.table_store (h : p.Laid) {a : ℕ} {bs : List UInt8} (hlo : p.base + ctrlOff ≤ a)
    (hhi : a + bs.length ≤ p.base + arenaBytes) :
    (p.view (m.store a bs)).table = (p.view m).table := by
  funext k
  simp only [view]
  split
  · next hk =>
      have hwin := h.table_window hk
      exact ByteMem.load32_store_of_disjoint m a bs (by omega)
  · rfl

theorem stamp_store {a : ℕ} {bs : List UInt8}
    (hstamp : p.base + ctrlOff + 32 ≤ a ∨ a + bs.length ≤ p.base + ctrlOff + 28) :
    (p.view (m.store a bs)).stamp = (p.view m).stamp := by
  simp only [view, loadOrderSize, kCtrlOrderSizeOff]
  exact ByteMem.load32_store_of_disjoint m a bs (by omega)

/-! ## Refinement -/

theorem applyOps_setOrder (p : SchedPlane) (tasks : List ℕ) :
    applyOps m (p.setOrder tasks) = m.storeWords p.tableBase (tasks.take p.N) := by
  have htake : tasks.take (min tasks.length p.N) = tasks.take p.N := by
    rw [Nat.min_comm, ← List.take_take, List.take_length]
  rw [← ByteMem.store_wordsToBytes]
  simp only [setOrder, htake]
  cases hd : p.orderDev with
  | none =>
      rw [tableBase_none hd]
      rfl
  | some d =>
      rw [tableBase_some hd]
      rfl

theorem view_setOrder (h : p.Laid) (tasks : List ℕ) :
    p.view (applyOps m (p.setOrder tasks)) = (p.view m).exec p.N (.setOrder tasks) := by
  have hlen : (tasks.take p.N).length ≤ p.N := List.length_take_le _ _
  rw [applyOps_setOrder]
  ext k
  · simp only [view, PlaneView.exec, overlay]
    by_cases hk : k < (tasks.take p.N).length
    · rw [if_pos (hk.trans_le hlen), List.getElem?_eq_getElem hk, Option.map_some, Option.getD_some]
      exact ByteMem.load32_storeWords m p.tableBase (tasks.take p.N) hk
    · rw [List.getElem?_eq_none (not_lt.1 hk), Option.map_none, Option.getD_none]
      split
      · exact ByteMem.load_storeWords_of_disjoint m _ _ (by omega)
      · rfl
  · refine ByteMem.load_storeWords_of_disjoint m _ _ ?_
    have hcap := h.cap
    simp only [ctrlOff, maxTasksLimit, kCtrlOrderSizeOff] at hcap ⊢
    cases hd : p.orderDev with
    | none =>
        rw [tableBase_none hd]
        omega
    | some d =>
        rw [tableBase_some hd]
        have hout := h.order d hd
        simp only [OutsideArena, arenaBytes] at hout
        omega
  · rfl

theorem view_push (h : p.Laid) (hpush : p.push = some (p', w)) :
    p'.view (applyOps m w) = (p.view m).exec p.N .push := by
  obtain ⟨host, hpack, heq⟩ := Option.map_eq_some_iff.1 hpush
  cases heq
  have hcap := h.cap
  have hbytes : p.ctrlBytes = 32 + 8 * p.N := rfl
  have hmirror : host.load32 ctrlOrderSizeOff = p.ctrlHost.load32 ctrlOrderSizeOff :=
    packU32_load32 hpack (by decide)
  simp only [maxTasksLimit] at hcap
  ext1
  · change (p.view ((m.store _ _).store _ _)).table = (p.view m).table
    rw [h.table_store, h.table_store] <;>
      simp only [ByteMem.length_slice, ctrlOff, arenaBytes, hbytes] <;> omega
  · change (p.view ((m.store _ _).store _ _)).stamp = p.ctrlHost.load32 ctrlOrderSizeOff
    have hgen : p.base + ctrlOff + (host.slice 0 4).length ≤ p.base + ctrlOff + 28 := by
      rw [ByteMem.length_slice]
      omega
    rw [stamp_store (Or.inr hgen), ← hmirror]
    -- the stamp is at offset 24 of the body, which starts at offset 4
    have hbody : 24 + 4 ≤ p.ctrlBytes - 4 := by omega
    exact ByteMem.load_store_slice m host (p.base + ctrlOff + 4) 4 hbody
  · exact hmirror

theorem view_clearTimer (h : p.Laid) : p.view (applyOps m p.clearTimer) = p.view m := by
  have hcap := h.cap
  simp only [maxTasksLimit] at hcap
  cases hd : p.timerDev with
  | none =>
      have happly : applyOps m p.clearTimer
          = m.store (p.base + timerOff) (List.replicate (8 * p.N) 0) := by
        rw [clearTimer, hd]
        rfl
      rw [happly]
      ext1
      · refine h.table_store ?_ ?_ <;>
          simp only [List.length_replicate, ctrlOff, timerOff, arenaBytes] <;> omega
      · refine stamp_store (Or.inl ?_)
        simp only [ctrlOff, timerOff]
        omega
      · rfl
  | some e =>
      have happly : applyOps m p.clearTimer = m.store e (List.replicate (8 * p.N) 0) := by
        rw [clearTimer, hd]
        rfl
      have hout := h.timer e hd
      simp only [OutsideArena, arenaBytes] at hout
      rw [happly]
      ext k
      · simp only [view]
        split
        · next hk =>
            refine ByteMem.load32_store_of_disjoint m e _ ?_
            rw [List.length_replicate]
            cases ho : p.orderDev with
            | none =>
                rw [tableBase_none ho]
                omega
            | some d =>
                rw [tableBase_some ho]
                have hapart := h.apart d ho e hd
                omega
        · rfl
      · refine stamp_store ?_
        simp only [List.length_replicate, ctrlOff]
        omega
      · rfl

theorem sameLayout_exec {op : PlaneOp} (h : p.exec op = some (p', w)) : p.SameLayout p' := by
  cases op with
  | setOrder tasks =>
      cases h
      exact .refl p
  | clearTimer =>
      cases h
      exact .refl p
  | push =>
      obtain ⟨host, -, heq⟩ := Option.map_eq_some_iff.1 h
      cases heq
      exact ⟨rfl, rfl, rfl, rfl⟩
  | setRow i q tau hint =>
      simp only [exec, setRow] at h
      split at h <;> cases h
      exact ⟨rfl, rfl, rfl, rfl⟩
  | _ =>
      obtain ⟨host, -, rfl, rfl⟩ := exists_packed h
      exact ⟨rfl, rfl, rfl, rfl⟩

/-- **A method does to the bytes what it means on views.** -/
theorem view_exec (h : p.Laid) {op : PlaneOp} (hexec : p.exec op = some (p', w)) :
    p'.view (applyOps m w) = (p.view m).exec p.N op := by
  cases op with
  | setOrder tasks =>
      cases hexec
      exact view_setOrder h tasks
  | push => exact view_push h hexec
  | clearTimer =>
      cases hexec
      exact view_clearTimer h
  | setRow i q tau hint =>
      simp only [exec, setRow] at hexec
      split at hexec <;> cases hexec
      have hrow : ctrlOrderSizeOff + 4 ≤ ctrlRowsOff + rowSize * i := by
        simp only [ctrlOrderSizeOff, ctrlRowsOff]
        omega
      have hmirror := ByteMem.load32_store_of_disjoint p.ctrlHost (ctrlRowsOff + rowSize * i)
        (ByteMem.toBytes 4 q ++ ByteMem.toBytes 2 tau ++ ByteMem.toBytes 1 hint) (Or.inl hrow)
      exact PlaneView.ext rfl rfl hmirror
  | setOrderSize n =>
      obtain ⟨host, hpack, rfl, rfl⟩ := exists_packed hexec
      exact PlaneView.ext rfl rfl (packU32_load32_self hpack)
  | setNumTasks n =>
      obtain ⟨host, hpack, rfl, rfl⟩ := exists_packed hexec
      exact PlaneView.ext rfl rfl (packU32_load32 hpack (by decide))
  | setTimerEnabled on =>
      obtain ⟨host, hpack, rfl, rfl⟩ := exists_packed hexec
      exact PlaneView.ext rfl rfl (packU32_load32 hpack (by decide))

theorem applyOps_nil (m : ByteMem) : applyOps m [] = m := rfl

theorem applyOps_cons (m : ByteMem) (o : MemOp) (w : List MemOp) :
    applyOps m (o :: w) = applyOps (m.store o.addr o.bytes) w := rfl

theorem applyOps_append (m : ByteMem) (w w' : List MemOp) :
    applyOps m (w ++ w') = applyOps (applyOps m w) w' := List.foldl_append

/-! ## The channel word -/

/-- The write does not touch the 64-bit word at `a`. -/
def SparesWord (a : ℕ) (op : MemOp) : Prop := op.addr + op.bytes.length ≤ a ∨ a + 8 ≤ op.addr

/-- On the device channel no method writes the channel word. -/
theorem exec_sparesWord (h : p.Laid) {d : ℕ} (hd : p.orderDev = some d) {op : PlaneOp}
    (hexec : p.exec op = some (p', w)) : ∀ o ∈ w, SparesWord (p.base + orderOff) o := by
  intro o ho
  cases op with
  | setOrder tasks =>
      cases hexec
      have hout := h.order d hd
      have hlen : (tasks.take (min tasks.length p.N)).length ≤ p.N := by
        rw [List.length_take]
        omega
      simp only [setOrder, hd, List.mem_singleton] at ho
      subst ho
      simp only [SparesWord, OutsideArena, arenaBytes, orderOff, ByteMem.length_wordsToBytes] at hout ⊢
      omega
  | push =>
      obtain ⟨host, -, heq⟩ := Option.map_eq_some_iff.1 hexec
      cases heq
      simp only [ctrlOff, List.mem_cons, List.not_mem_nil, or_false] at ho
      rcases ho with rfl | rfl <;> simp only [SparesWord, orderOff] <;> omega
  | clearTimer =>
      cases hexec
      cases he : p.timerDev with
      | none =>
          simp only [clearTimer, he, List.mem_singleton] at ho
          subst ho
          simp only [SparesWord, timerOff, orderOff]
          omega
      | some e =>
          have hout := h.timer e he
          simp only [clearTimer, he, List.mem_singleton] at ho
          subst ho
          simp only [SparesWord, OutsideArena, arenaBytes, orderOff, List.length_replicate] at hout ⊢
          omega
  | setRow i q tau hint =>
      simp only [exec] at hexec
      obtain ⟨p₁, -, heq⟩ := Option.map_eq_some_iff.1 hexec
      cases heq
      exact absurd ho List.not_mem_nil
  | _ =>
      obtain ⟨p₁, -, heq⟩ := Option.map_eq_some_iff.1 hexec
      cases heq
      exact absurd ho List.not_mem_nil

theorem load64_applyOps {a : ℕ} (h : ∀ o ∈ w, SparesWord a o) :
    (applyOps m w).load64 a = m.load64 a := by
  induction w generalizing m with
  | nil => rfl
  | cons o w ih =>
      have hrest := ih (m := o.apply m) fun o' ho' => h o' (List.mem_cons_of_mem o ho')
      exact hrest.trans (ByteMem.load_store_of_disjoint m _ _ (h o List.mem_cons_self).symm)

theorem channelOk_exec (h : p.Laid) (hchan : p.ChannelOk m) {op : PlaneOp}
    (hexec : p.exec op = some (p', w)) : p'.ChannelOk (applyOps m w) := by
  have hsame := sameLayout_exec hexec
  intro d hd
  rw [hsame.orderDev] at hd
  rw [hsame.base, load64_applyOps (exec_sparesWord h hd hexec)]
  exact hchan d hd

end SchedPlane

end SchedPass
