import SchedPass.Weave.Remap
import SchedPass.Plane.View

set_option autoImplicit false

/-! # Consistent planes

A plane is `Consistent` when either its stamp is 0 and its table the identity, or its stamp is the
length of a permutation prefix. Over a consistent plane every launch of the plain weave is a
bijection of its tiles (`PlaneView.Consistent.bijective`). An install of a permutation of `n` > 0
tiles and a retirement to the identity are consistent, and so is a new plane. -/

namespace SchedPass

/-! ## Consistent planes -/

/-- Stamp 0 and the identity on the whole table, or a stamped permutation prefix. -/
def PlaneView.Consistent (N : ℕ) (v : PlaneView) : Prop :=
  (v.stamp = 0 ∧ ∀ k < N, v.table k = k) ∨
    (0 < v.stamp ∧ v.stamp ≤ N ∧ PermutesBelow v.table v.stamp)

theorem PlaneView.Consistent.matches {N : ℕ} {v : PlaneView} (h : v.Consistent N) (g : ℕ) :
    TableMatches v.table N v.stamp g := by
  rcases h with ⟨hzero, hid⟩ | h
  · exact Or.inr ⟨hzero, PermutesBelow.of_eq_self fun i hi => hid i (hi.trans_le (min_le_right g N))⟩
  · exact Or.inl h

/-- The runtime slots of a kernel compiled against the plane (`bake_env`). -/
def SchedPlane.slots (p : SchedPlane) : RtSlots where
  taskOrder := { bakedAddr := p.base + orderOff }
  ctrl := { bakedAddr := p.base + ctrlOff }
  queue := { bakedAddr := p.base + queueOff }
  timer := { bakedAddr := p.base + timerOff }

theorem SchedPlane.base_order {p : SchedPlane} (hbase : 0 < p.base) :
    p.slots.taskOrder.base = p.base + orderOff :=
  RtSlot.base_baked (by omega)

theorem SchedPlane.base_ctrl {p : SchedPlane} (hbase : 0 < p.base) :
    p.slots.ctrl.base = p.base + ctrlOff :=
  RtSlot.base_baked (by omega)

/-- The kernel's configuration has the plane's capacity and order layout. -/
structure SchedPlane.Bakes (p : SchedPlane) (C : Config) : Prop where
  maxTasks : C.maxTasks = p.N
  orderIndirect : C.orderIndirect = p.orderDev.isSome

/-- A set channel, as the kernel sees it. -/
theorem SchedPlane.ChannelOk.channelSet {p : SchedPlane} {m : ByteMem} {C : Config}
    (hchan : p.ChannelOk m) (hC : p.Bakes C) (hbase : 0 < p.base) (hpos : ∀ d ∈ p.orderDev, 0 < d) :
    ChannelSet C p.slots m := by
  intro hind
  rw [hC.orderIndirect, Option.isSome_iff_exists] at hind
  obtain ⟨d, hd⟩ := hind
  have horderBase : p.slots.taskOrder.base = p.base + orderOff :=
    RtSlot.base_baked (by simpa [orderOff] using hbase)
  rw [horderBase, hchan d hd]
  exact (hpos d hd).ne'

theorem SchedPlane.slots_armed {p : SchedPlane} (hbase : 0 < p.base) :
    p.slots.taskOrder.Armed ∧ p.slots.ctrl.Armed :=
  ⟨RtSlot.armed_baked (by simpa [orderOff] using hbase), RtSlot.armed_baked (by omega)⟩

/-- A plane's table that matches its stamp does so as a kernel addresses the two. -/
theorem TableMatches.slots {p : SchedPlane} {m : ByteMem} {C : Config} {g : ℕ}
    (h : TableMatches (p.view m).table p.N (p.view m).stamp g) (hC : p.Bakes C) (hbase : 0 < p.base)
    (hchan : p.ChannelOk m) :
    TableMatches (orderTable C p.slots m) C.maxTasks (loadOrderSize m p.slots.ctrl.base) g := by
  have horderBase : p.slots.taskOrder.base = p.base + orderOff :=
    RtSlot.base_baked (by simpa [orderOff] using hbase)
  have hctrlBase : p.slots.ctrl.base = p.base + ctrlOff := RtSlot.base_baked (by omega)
  have htable : ∀ k < p.N, (p.view m).table k = orderTable C p.slots m k := by
    intro k hk
    rw [orderTable, horderBase, hC.orderIndirect]
    simp only [SchedPlane.view, if_pos hk, SchedPlane.tableBase]
    cases hd : p.orderDev with
    | none => rfl
    | some d => simp [hchan d hd]
  have hstamp : (p.view m).stamp = loadOrderSize m p.slots.ctrl.base := by
    simp only [SchedPlane.view, hctrlBase]
  rw [hC.maxTasks, ← hstamp]
  rcases h with ⟨hpos, hle, hperm⟩ | ⟨hzero, hperm⟩
  · exact Or.inl ⟨hpos, hle, hperm.congr fun k hk => htable k (hk.trans_le hle)⟩
  · exact Or.inr ⟨hzero, hperm.congr fun k hk => htable k (hk.trans_le (min_le_right _ _))⟩

/-- **A launch over a consistent plane is a bijection of its tiles**, whatever its size. -/
theorem PlaneView.Consistent.bijective {p : SchedPlane} {m : ByteMem} {C : Config}
    (h : (p.view m).Consistent p.N) (hC : p.Bakes C) (hbase : 0 < p.base) (hchan : p.ChannelOk m)
    (hpos : ∀ d ∈ p.orderDev, 0 < d) (g : ℕ) : PermutesBelow (emitRemap C p.slots m g) g :=
  emitRemap_permutesBelow (SchedPlane.slots_armed hbase).1 (SchedPlane.slots_armed hbase).2
    (hchan.channelSet hC hbase hpos) ((h.matches g).slots hC hbase hchan)

/-! ## Installs -/

/-- The view after an install of `order` for `n` tiles has been published. -/
def PlaneView.installed (N : ℕ) (v : PlaneView) (order : List ℕ) (n : ℕ) : PlaneView :=
  ⟨overlay (order.take N) v.table, n, n⟩

theorem overlay_of_lt {ws : List ℕ} {table : ℕ → ℕ} {k : ℕ} (hk : k < ws.length)
    (hw : ws[k] < 2 ^ 32) : overlay ws table k = ws[k] := by
  rw [overlay, List.getElem?_eq_getElem hk, Option.map_some, Option.getD_some, Nat.mod_eq_of_lt hw]

theorem overlay_of_ge {ws : List ℕ} {table : ℕ → ℕ} {k : ℕ} (hk : ws.length ≤ k) :
    overlay ws table k = table k := by
  rw [overlay, List.getElem?_eq_none hk, Option.map_none, Option.getD_none]

section

variable {N n : ℕ} {order : List ℕ} (hN : N ≤ 2 ^ 32) (hperm : order.Perm (List.range n))
  (hn : n ≤ N) (table : ℕ → ℕ)

include hN hperm hn

/-- A permutation of `n` tiles lies over the first `n` entries -/
theorem overlay_perm_of_lt {k : ℕ} (hk : k < order.length) :
    overlay (order.take N) table k = order[k] := by
  have hlen : order.length = n := by rw [hperm.length_eq, List.length_range]
  have hlt := List.mem_range.1 (hperm.mem_iff.1 (List.getElem_mem hk))
  rw [List.take_of_length_le (by omega), overlay_of_lt hk (by omega)]

omit hN in
/-- and over no other. -/
theorem overlay_perm_of_ge {k : ℕ} (hk : n ≤ k) : overlay (order.take N) table k = table k := by
  have hlen : order.length = n := by rw [hperm.length_eq, List.length_range]
  rw [List.take_of_length_le (by omega), overlay_of_ge (by omega)]

theorem overlay_permutesBelow : PermutesBelow (overlay (order.take N) table) n :=
  PermutesBelow.of_perm_range hperm fun _ hk => overlay_perm_of_lt hN hperm hn table hk

end

/-- Installing a permutation of `n` > 0 tiles. -/
theorem consistent_installed {N n : ℕ} (hN : N ≤ maxTasksLimit) (v : PlaneView) {order : List ℕ}
    (hperm : order.Perm (List.range n)) (hpos : 0 < n) (hn : n ≤ N) :
    (v.installed N order n).Consistent N :=
  Or.inr ⟨hpos, hn, overlay_permutesBelow (hN.trans (by decide)) hperm hn v.table⟩

/-- Retiring to the identity. -/
theorem installed_range {N : ℕ} (hN : N ≤ maxTasksLimit) (v : PlaneView) {k : ℕ} (hk : k < N) :
    (v.installed N (List.range N) 0).table k = k := by
  have hlen : k < (List.range N).length := by rwa [List.length_range]
  have hcap : N ≤ 2 ^ 32 := hN.trans (by decide)
  exact (overlay_perm_of_lt hcap (.refl _) le_rfl v.table hlen).trans (List.getElem_range hlen)

/-- An install for zero tiles only clears the stamp. -/
theorem consistent_installed_nil_iff {N : ℕ} (v : PlaneView) :
    (v.installed N [] 0).Consistent N ↔ ∀ k < N, v.table k = k := by
  have htable : (v.installed N [] 0).table = v.table := by
    funext k
    simp [PlaneView.installed, overlay]
  constructor
  · rintro (⟨-, hid⟩ | ⟨hpos, -⟩)
    · rwa [htable] at hid
    · exact absurd hpos (lt_irrefl 0)
  · intro hid
    refine Or.inl ⟨rfl, ?_⟩
    rwa [htable]

/-! ## A new plane -/

variable {p : SchedPlane} {m : ByteMem} {w : List MemOp} {N : ℕ}

/-- The identity table with stamp 0, published. -/
structure PlaneView.Fresh (N : ℕ) (v : PlaneView) : Prop where
  table : ∀ k < N, v.table k = k
  stamp : v.stamp = 0
  mirror : v.mirror = 0

theorem SchedPlane.exists_create (hN : N ≤ maxTasksLimit) (base : ℕ) :
    ∃ p w, SchedPlane.create N base = some (p, w) := by
  simp only [SchedPlane.create, if_pos hN, SchedPlane.push, SchedPlane.packU32]
  exact ⟨_, _, rfl⟩

theorem SchedPlane.laid_direct (hN : N ≤ maxTasksLimit) (base : ℕ) :
    ({ N := N, base := base } : SchedPlane).Laid :=
  ⟨hN, by simp, by simp, by simp⟩

/-- The constructor zeroes the arena, resets the order and pushes. -/
theorem SchedPlane.push_of_create {base : ℕ} (hcreate : SchedPlane.create N base = some (p, w)) :
    N ≤ maxTasksLimit ∧ ∃ w', ({ N := N, base := base } : SchedPlane).push = some (p, w') ∧
      ∀ m, applyOps m w = applyOps (applyOps (m.store base (List.replicate arenaBytes 0))
        (SchedPlane.resetOrder { N := N, base := base })) w' := by
  unfold SchedPlane.create at hcreate
  split at hcreate
  · next hN =>
      obtain ⟨⟨p', w'⟩, hpush, heq⟩ := Option.map_eq_some_iff.1 hcreate
      cases heq
      refine ⟨hN, w', hpush, fun m => ?_⟩
      rw [List.cons_append, SchedPlane.applyOps_cons, SchedPlane.applyOps_append]
  · exact absurd hcreate (by simp)

theorem SchedPlane.sameLayout_create {base : ℕ} (hcreate : SchedPlane.create N base = some (p, w)) :
    ({ N := N, base := base } : SchedPlane).SameLayout p := by
  obtain ⟨-, w', hpush, -⟩ := SchedPlane.push_of_create hcreate
  have hexec : ({ N := N, base := base } : SchedPlane).exec .push = some (p, w') := hpush
  exact SchedPlane.sameLayout_exec hexec

theorem SchedPlane.laid_create {base : ℕ} (hcreate : SchedPlane.create N base = some (p, w)) :
    p.Laid :=
  (SchedPlane.laid_direct (SchedPlane.push_of_create hcreate).1 base).congr
    (SchedPlane.sameLayout_create hcreate)

theorem fresh_create {base : ℕ} (hcreate : SchedPlane.create N base = some (p, w)) :
    N ≤ maxTasksLimit ∧ ({ N := N, base := base } : SchedPlane).SameLayout p ∧
      (p.view (applyOps m w)).Fresh N := by
  obtain ⟨hN, w', hpush, hops⟩ := SchedPlane.push_of_create hcreate
  have hlaid := SchedPlane.laid_direct hN base
  rw [hops, SchedPlane.view_push hlaid hpush, SchedPlane.resetOrder, SchedPlane.view_setOrder hlaid]
  exact ⟨hN, SchedPlane.sameLayout_create hcreate, fun k hk => installed_range hN _ hk, rfl, rfl⟩

theorem fresh_useDeviceTimer {dev : ℕ} (hlaid : p.Laid) (hnone : p.orderDev = none)
    (hout : OutsideArena p.base dev (8 * p.N)) (h : (p.view m).Fresh N) :
    ((p.useDeviceTimer dev).1.view (applyOps m (p.useDeviceTimer dev).2)).Fresh N := by
  have hcap := hlaid.cap
  simp only [maxTasksLimit] at hcap
  have htable : (p.view (applyOps m (p.useDeviceTimer dev).2)).table = (p.view m).table := by
    have hword : (p.view ((m.store dev (List.replicate (8 * p.N) 0)).store (p.base + timerOff)
        (ByteMem.toBytes 8 dev))).table = (p.view (m.store dev (List.replicate (8 * p.N) 0))).table := by
      refine hlaid.table_store ?_ ?_ <;>
        simp only [ByteMem.length_toBytes, ctrlOff, timerOff, arenaBytes] <;> omega
    refine hword.trans (funext fun k => ?_)
    simp only [SchedPlane.view, SchedPlane.tableBase_none hnone]
    split
    · refine ByteMem.load32_store_of_disjoint _ _ _ ?_
      simp only [OutsideArena, arenaBytes] at hout
      rw [List.length_replicate]
      omega
    · rfl
  have hstamp : (p.view (applyOps m (p.useDeviceTimer dev).2)).stamp = (p.view m).stamp := by
    have hword : (p.view ((m.store dev (List.replicate (8 * p.N) 0)).store (p.base + timerOff)
        (ByteMem.toBytes 8 dev))).stamp = (p.view (m.store dev (List.replicate (8 * p.N) 0))).stamp := by
      refine SchedPlane.stamp_store (Or.inl ?_)
      simp only [ctrlOff, timerOff]
      omega
    refine hword.trans (SchedPlane.stamp_store ?_)
    simp only [OutsideArena, arenaBytes] at hout
    simp only [List.length_replicate, ctrlOff]
    omega
  exact ⟨fun k hk => (congrFun htable k).trans (h.table k hk), hstamp.trans h.stamp, h.mirror⟩

theorem fresh_useDeviceOrder {dev : ℕ} (hlaid : p.Laid)
    (hout : OutsideArena p.base dev (4 * p.N)) (hdev : dev < 2 ^ 64) (h : (p.view m).Fresh p.N) :
    ((p.useDeviceOrder dev).1.view (applyOps m (p.useDeviceOrder dev).2)).Fresh p.N ∧
      (p.useDeviceOrder dev).1.ChannelOk (applyOps m (p.useDeviceOrder dev).2) := by
  have hcap := hlaid.cap
  simp only [maxTasksLimit] at hcap
  simp only [OutsideArena, arenaBytes] at hout
  have happly : applyOps m (p.useDeviceOrder dev).2
      = (m.storeWords dev (List.range p.N)).store (p.base + orderOff) (ByteMem.toBytes 8 dev) := by
    rw [← ByteMem.store_wordsToBytes]
    rfl
  rw [happly]
  refine ⟨⟨fun k hk => ?_, ?_, h.mirror⟩, fun d hd => ?_⟩
  · have hlen : k < (List.range p.N).length := by rwa [List.length_range]
    have hval : (List.range p.N)[k] = k := List.getElem_range hlen
    have hapart : dev + 4 * k + 4 ≤ p.base + orderOff ∨
        p.base + orderOff + (ByteMem.toBytes 8 dev).length ≤ dev + 4 * k := by
      simp only [ByteMem.length_toBytes, orderOff]
      omega
    simp only [SchedPlane.view, SchedPlane.useDeviceOrder, SchedPlane.tableBase,
      Option.getD_some, tableWord]
    rw [ByteMem.load32_store_of_disjoint _ _ _ hapart, ByteMem.load32_storeWords m dev _ hlen, hval,
      Nat.mod_eq_of_lt (by omega)]
    exact if_pos hk
  · have hstamp := h.stamp
    simp only [SchedPlane.view, SchedPlane.useDeviceOrder, loadOrderSize] at hstamp ⊢
    rw [ByteMem.load32_store_of_disjoint, ByteMem.load32, ByteMem.load_storeWords_of_disjoint]
    · exact hstamp
    · simp only [List.length_range, ctrlOff, kCtrlOrderSizeOff]
      omega
    · simp only [ByteMem.length_toBytes, ctrlOff, kCtrlOrderSizeOff, orderOff]
      omega
  · cases hd
    exact ByteMem.load_store_toBytes_of_lt _ _ 8 hdev

end SchedPass
