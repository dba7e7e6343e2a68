import SchedPass.Controller.ControlPlane
import SchedPass.Plane.Consistent
import SchedPass.Runtime.HostRt
import SchedPass.Runtime.TauRows

set_option autoImplicit false

/-! # Installing shorter orders over longer ones

`set_order`, `SchedControlPlane.step` and `sched_rt_set_order` write an order of `k` tasks over the
first `k` entries of the table and leave the others as they are. The documentation promises an identity
tail, but the tail is what the longer orders before left there. So the table stays a permutation with an
identity tail exactly while each order fixes the indices from the next order's length on
(`prefixInstalls_iff`). -/

namespace SchedPass

/-! ## The table, by the orders -/

/-- The entries from the next order's length on are fixed. -/
def FixesRest (order next : List ℕ) : Prop :=
  ∀ i (hi : i < order.length), next.length ≤ i → order[i] = i

/-- The identity table of capacity `N` after the orders were installed. -/
def installed (N : ℕ) (orders : List (List ℕ)) : ℕ → ℕ :=
  orders.foldl (fun table order => overlay (order.take N) table) id

instance (order next : List ℕ) : Decidable (FixesRest order next) :=
  inferInstanceAs (Decidable (∀ _, _))

/-- An order that `set_order` is meant for: a permutation of at most `N` tasks. -/
def IsOrder (N : ℕ) (order : List ℕ) : Prop :=
  order.length ≤ N ∧ order.Perm (List.range order.length)

instance (N : ℕ) (order : List ℕ) : Decidable (IsOrder N order) :=
  inferInstanceAs (Decidable (_ ∧ _))

section

variable {N : ℕ} {orders : List (List ℕ)}

theorem installed_concat (N : ℕ) (orders : List (List ℕ)) (order : List ℕ) :
    installed N (orders ++ [order]) = overlay (order.take N) (installed N orders) := by
  rw [installed, List.foldl_append]
  rfl

/-- The tail is the identity behind the last order, where all orders fit the ones that follow. -/
theorem installed_tail (hN : N ≤ 2 ^ 32) (horders : ∀ o ∈ orders, IsOrder N o)
    (hchain : orders.IsChain FixesRest) {done : List (List ℕ)} {order : List ℕ}
    (hdone : done ++ [order] <+: orders) {i : ℕ} (hi : order.length ≤ i) :
    installed N (done ++ [order]) i = i := by
  induction done using List.reverseRecOn generalizing order with
  | nil =>
      obtain ⟨hle, hperm⟩ := horders order (hdone.subset (by simp))
      rw [installed_concat, overlay_perm_of_ge hperm hle _ hi]
      rfl
  | append_singleton done last ih =>
      obtain ⟨hle, hperm⟩ := horders order (hdone.subset (by simp))
      have hlast : done ++ [last] <+: orders := (List.prefix_append _ [order]).trans hdone
      obtain ⟨hle', hperm'⟩ := horders last (hlast.subset (by simp))
      rw [installed_concat, overlay_perm_of_ge hperm hle _ hi]
      rcases Nat.lt_or_ge i last.length with hlt | hge
      · -- left there by the order before, which fixes it
        obtain ⟨rest, rfl⟩ := hdone
        have hsplit : done ++ [last] ++ [order] ++ rest = done ++ last :: order :: rest := by simp
        have hfix : FixesRest last order :=
          List.isChain_iff_forall_rel_of_append_cons_cons.1 hchain hsplit
        rw [installed_concat, overlay_perm_of_lt hN hperm' hle' _ hlt]
        exact hfix i hlt hi
      · exact ih hlast hge

/-- An identity tail behind every order is all that it takes. -/
theorem isChain_of_installed_tail (hN : N ≤ 2 ^ 32) (horders : ∀ o ∈ orders, IsOrder N o)
    (htail : ∀ done order, done ++ [order] <+: orders →
      ∀ i, order.length ≤ i → i < N → installed N (done ++ [order]) i = i) :
    orders.IsChain FixesRest := by
  refine List.isChain_iff_forall_rel_of_append_cons_cons.2 fun order next done rest heq i hi hnext => ?_
  obtain ⟨hle, hperm⟩ := horders order (by simp [heq])
  obtain ⟨hle', hperm'⟩ := horders next (by simp [heq])
  have hdone : done ++ [order] ++ [next] <+: orders := ⟨rest, by simp [heq]⟩
  have hfixed := htail _ _ hdone i hnext (hi.trans_le hle)
  rwa [installed_concat, overlay_perm_of_ge hperm' hle' _ hnext, installed_concat,
    overlay_perm_of_lt hN hperm hle _ hi] at hfixed

/-- Behind every order the table is a permutation, where the tail is the identity. -/
theorem installed_permutesBelow (hN : N ≤ 2 ^ 32) {order : List ℕ} (horder : IsOrder N order)
    {g : ℕ} (hle : order.length ≤ g)
    (htail : ∀ i, order.length ≤ i → i < g → installed N (orders ++ [order]) i = i) :
    PermutesBelow (installed N (orders ++ [order])) g := by
  refine PermutesBelow.extend ?_ hle htail
  rw [installed_concat]
  exact overlay_permutesBelow hN horder.2 horder.1 _

end

/-! ## Where orders are installed -/

/-- `sched_rt_set_order` whose copy succeeds: the device memory behind it. -/
def SchedRt.setOrder (maxTasks : ℕ) (s : SchedRt) (order : List ℕ) (m : ByteMem) : ByteMem :=
  let n := if order.length > maxTasks then maxTasks else order.length
  m.storeWords s.dOrder (order.take n)

/-- A serving plane or the host runtime, with the memory that it writes. -/
inductive Installer
  | plane (p : SchedPlane) (m : ByteMem)
  | runtime (maxTasks : ℕ) (s : SchedRt) (m : ByteMem)

namespace Installer

def cap : Installer → ℕ
  | plane p _ => p.N
  | runtime maxTasks _ _ => maxTasks

def mem : Installer → ByteMem
  | plane _ m => m
  | runtime _ _ m => m

/-- The slots of a kernel that is launched. -/
def slots : Installer → RtSlots
  | plane p _ => p.slots
  | runtime _ s _ => s.slots

/-- The order table, and the identity from the capacity on. -/
def table : Installer → ℕ → ℕ
  | plane p m => (p.view m).table
  | runtime maxTasks s m => fun k => if k < maxTasks then tableWord m s.dOrder k else k

/-- The kernel has the capacity and the order layout. The named globals lead to the tables directly. -/
def Bakes : Installer → Config → Prop
  | plane p _, C => p.Bakes C
  | runtime maxTasks _ _, C => C.maxTasks = maxTasks ∧ C.orderIndirect = false

/-- The host runtime over two buffers of its own. -/
structure RuntimeOk (maxTasks : ℕ) (s : SchedRt) : Prop where
  cap : maxTasks < 2 ^ 31
  order : s.slotOrder = s.dOrder ∧ 0 < s.dOrder
  ctrl : s.slotCtrl = s.dCtrl ∧ 0 < s.dCtrl
  apart : s.dOrder + 4 * maxTasks ≤ s.dCtrl ∨ s.dCtrl + SchedRt.ctrlSize maxTasks ≤ s.dOrder

/-- The plane over memory of its own, with its order channel set. -/
structure PlaneOk (p : SchedPlane) (m : ByteMem) : Prop where
  laid : p.Laid
  base : 0 < p.base
  order : ∀ d ∈ p.orderDev, 0 < d
  channel : p.ChannelOk m

/-- The tables are well placed, and nothing is stamped. -/
def Unchecked : Installer → Prop
  | plane p m => PlaneOk p m ∧ (p.view m).stamp = 0 ∧ (p.view m).mirror = 0
  | runtime maxTasks s m => RuntimeOk maxTasks s ∧ loadOrderSize m s.dCtrl = 0

/-- Behind the initialisation: the identity table, unchecked. -/
def Fresh (x : Installer) : Prop := x.Unchecked ∧ x.table = id

/-- One call that installs `order`. -/
inductive Step : Installer → List ℕ → Installer → Prop
  | setOrder {p : SchedPlane} {m : ByteMem} (order : List ℕ) :
      Step (plane p m) order (plane p (applyOps m (p.setOrder order)))
  | step {κ K : Type} [Field K] [LinearOrder K] [DecidableEq κ] {p p' : SchedPlane} {m : ByteMem}
      (ctl : SchedControlPlane κ K) (rids : List κ) (kvLens : List K)
      (cycles deadlines elapsed : Option (List K)) {o : SlotOrder} {ops : List PlaneOp}
      {w : List MemOp} (hstep : (ctl.step rids kvLens cycles deadlines elapsed).1 = .ok (o, ops))
      (hexec : p.execAll ops = some (p', w)) :
      Step (plane p m) o.indices (plane p' (applyOps m w))
  -- `set_num_tasks` or `push` raises behind the install
  | stepRaises {κ K : Type} [Field K] [LinearOrder K] [DecidableEq κ] {p p' : SchedPlane}
      {m : ByteMem} (ctl : SchedControlPlane κ K) (rids : List κ) (kvLens : List K)
      (cycles deadlines elapsed : Option (List K)) {o : SlotOrder} {ops : List PlaneOp}
      (hstep : (ctl.step rids kvLens cycles deadlines elapsed).1 = .ok (o, ops))
      (hexec : p.execAll ops = none) (hlayout : p.SameLayout p')
      (hmirror : p'.ctrlHost.load32 ctrlOrderSizeOff = p.ctrlHost.load32 ctrlOrderSizeOff) :
      Step (plane p m) o.indices (plane p' (applyOps m (p.setOrder o.indices)))
  | rtSetOrder {maxTasks : ℕ} {s : SchedRt} {m : ByteMem} (order : List ℕ) :
      Step (runtime maxTasks s m) order (runtime maxTasks s (s.setOrder maxTasks order m))

/-- Calls that install the orders one behind another. -/
inductive Runs (x : Installer) : List (List ℕ) → Installer → Prop
  | nil : Runs x [] x
  | concat {y z : Installer} {orders : List (List ℕ)} {order : List ℕ} (hrun : Runs x orders y)
      (hstep : y.Step order z) : Runs x (orders ++ [order]) z

/-! ## Fresh tables -/

theorem fresh_of_view {p : SchedPlane} {m : ByteMem} (hok : PlaneOk p m) (h : (p.view m).Fresh p.N) :
    (plane p m).Fresh := by
  refine ⟨⟨hok, h.stamp, h.mirror⟩, funext fun k => ?_⟩
  by_cases hk : k < p.N
  · exact h.table k hk
  · exact if_neg hk

/-- A new plane, on the direct channel -/
theorem fresh_create {N base : ℕ} (hbase : 0 < base) {p : SchedPlane} {w : List MemOp}
    (hcreate : SchedPlane.create N base = some (p, w)) (m : ByteMem) :
    (plane p (applyOps m w)).Fresh ∧ p.N = N ∧ p.base = base ∧ p.timerDev = none := by
  obtain ⟨-, hlayout, hview⟩ := SchedPass.fresh_create (m := m) hcreate
  have horder : p.orderDev = none := hlayout.orderDev
  refine ⟨fresh_of_view ⟨SchedPlane.laid_create hcreate, hlayout.base ▸ hbase, ?_, ?_⟩
    (hlayout.N ▸ hview), hlayout.N, hlayout.base, hlayout.timerDev⟩
  · simp [horder]
  · simp [SchedPlane.ChannelOk, horder]

/-- and on the device channel. -/
theorem fresh_useDeviceOrder {p : SchedPlane} {m : ByteMem} (h : (plane p m).Fresh) {dev : ℕ}
    (hpos : 0 < dev) (hdev : dev < 2 ^ 64) (hout : OutsideArena p.base dev (4 * p.N))
    (hapart : ∀ e ∈ p.timerDev, dev + 4 * p.N ≤ e ∨ e + 8 * p.N ≤ dev) :
    (plane (p.useDeviceOrder dev).1 (applyOps m (p.useDeviceOrder dev).2)).Fresh := by
  obtain ⟨⟨⟨hlaid, hbase, -, -⟩, hstamp, hmirror⟩, htable⟩ := h
  have hview : (p.view m).Fresh p.N := ⟨fun k _ => congrFun htable k, hstamp, hmirror⟩
  obtain ⟨hview', hchan⟩ := SchedPass.fresh_useDeviceOrder hlaid hout hdev hview
  refine fresh_of_view ⟨⟨hlaid.cap, ?_, hlaid.timer, ?_⟩, hbase, ?_, hchan⟩ hview'
  · rintro d ⟨⟩
    exact hout
  · rintro d ⟨⟩
    exact hapart
  · rintro d ⟨⟩
    exact hpos

/-- A new plane of three rows. -/
theorem exists_fresh : ∃ x : Installer, x.Fresh ∧ x.cap = 3 := by
  obtain ⟨p, w, hcreate⟩ := SchedPlane.exists_create (show 3 ≤ maxTasksLimit by decide) 4096
  obtain ⟨hfresh, hN, -⟩ := fresh_create (by decide) hcreate ByteMem.zeroed
  exact ⟨_, hfresh, hN⟩

/-! ## What a call does -/

variable {x y : Installer} {p p' : SchedPlane} {m : ByteMem} {order : List ℕ}

/-- The calls of a controller step that got its order. -/
theorem calls_of_step {κ K : Type} [Field K] [LinearOrder K] [DecidableEq κ]
    {ctl : SchedControlPlane κ K} {rids : List κ} {kvLens : List K}
    {cycles deadlines elapsed : Option (List K)} {o : SlotOrder} {ops : List PlaneOp}
    (h : (ctl.step rids kvLens cycles deadlines elapsed).1 = .ok (o, ops)) :
    ops = [.setOrder o.indices, .setNumTasks o.indices.length, .push] := by
  unfold SchedControlPlane.step at h
  generalize (ctl.observed rids kvLens cycles).order rids kvLens deadlines elapsed = r at h
  obtain ⟨result, ctl'⟩ := r
  cases result with
  | error e => cases h
  | ok o' =>
      cases h
      rfl

/-- Planes of one layout with one mirrored stamp look alike. -/
theorem view_congr (hlayout : p.SameLayout p')
    (hmirror : p'.ctrlHost.load32 ctrlOrderSizeOff = p.ctrlHost.load32 ctrlOrderSizeOff)
    (m : ByteMem) : p'.view m = p.view m := by
  simp only [SchedPlane.view, SchedPlane.tableBase, hlayout.N, hlayout.base, hlayout.orderDev, hmirror]

theorem PlaneOk.congr (h : PlaneOk p m) (hlayout : p.SameLayout p') : PlaneOk p' m := by
  refine ⟨h.laid.congr hlayout, hlayout.base ▸ h.base, hlayout.orderDev ▸ h.order, ?_⟩
  simp only [SchedPlane.ChannelOk, hlayout.base, hlayout.orderDev]
  exact h.channel

theorem PlaneOk.exec (h : PlaneOk p m) {op : PlaneOp} {w : List MemOp}
    (hexec : p.exec op = some (p', w)) :
    PlaneOk p' (applyOps m w) ∧ p'.N = p.N ∧ p'.view (applyOps m w) = (p.view m).exec p.N op := by
  have hlayout := SchedPlane.sameLayout_exec hexec
  refine ⟨⟨h.laid.congr hlayout, hlayout.base ▸ h.base, hlayout.orderDev ▸ h.order, ?_⟩,
    hlayout.N, SchedPlane.view_exec h.laid hexec⟩
  exact SchedPlane.channelOk_exec h.laid h.channel hexec

theorem PlaneOk.setOrder (h : PlaneOk p m) (order : List ℕ) :
    PlaneOk p (applyOps m (p.setOrder order)) ∧
      p.view (applyOps m (p.setOrder order)) = (p.view m).exec p.N (.setOrder order) := by
  have hexec : p.exec (.setOrder order) = some (p, p.setOrder order) := rfl
  exact ⟨(h.exec hexec).1, (h.exec hexec).2.2⟩

theorem PlaneOk.execAll (h : PlaneOk p m) {ops : List PlaneOp} {w : List MemOp}
    (hrun : p.execAll ops = some (p', w)) :
    PlaneOk p' (applyOps m w) ∧ p'.N = p.N ∧
      p'.view (applyOps m w) = ops.foldl (PlaneView.exec p.N) (p.view m) := by
  induction ops generalizing p m w with
  | nil =>
      cases hrun
      exact ⟨h, rfl, rfl⟩
  | cons op ops ih =>
      obtain ⟨p₁, w₁, w₂, hexec, hrest, rfl⟩ := SchedPlane.execAll_cons_eq_some.1 hrun
      obtain ⟨h₁, hN₁, hview₁⟩ := h.exec hexec
      obtain ⟨h₂, hN₂, hview₂⟩ := ih h₁ hrest
      rw [SchedPlane.applyOps_append]
      refine ⟨h₂, hN₂.trans hN₁, ?_⟩
      rw [hview₂, hview₁, hN₁, List.foldl_cons]

/-- The runtime's copy, as a write over the first entries. -/
theorem setOrder_eq (maxTasks : ℕ) (s : SchedRt) (order : List ℕ) (m : ByteMem) :
    s.setOrder maxTasks order m = m.storeWords s.dOrder (order.take maxTasks) := by
  unfold SchedRt.setOrder
  by_cases h : order.length > maxTasks
  · simp only [if_pos h]
  · simp only [if_neg h]
    rw [List.take_of_length_le le_rfl, List.take_of_length_le (by omega)]

/-- **A call writes its order over the table** and leaves the stamp at 0. -/
theorem Step.installs (hstep : x.Step order y) (h : x.Unchecked) :
    y.Unchecked ∧ y.cap = x.cap ∧ y.table = overlay (order.take x.cap) x.table := by
  cases hstep with
  | setOrder =>
      obtain ⟨hok, hstamp, hmirror⟩ := h
      obtain ⟨hok', hview⟩ := hok.setOrder order
      simp only [Unchecked, table, hview]
      exact ⟨⟨hok', hstamp, hmirror⟩, rfl, rfl⟩
  | step ctl rids kvLens cycles deadlines elapsed hctl hexec =>
      obtain ⟨hok, hstamp, hmirror⟩ := h
      obtain ⟨hok', hN, hview⟩ := hok.execAll hexec
      rw [calls_of_step hctl] at hview
      simp only [Unchecked, table, hview]
      exact ⟨⟨hok', hmirror, hmirror⟩, hN, rfl⟩
  | stepRaises ctl rids kvLens cycles deadlines elapsed hctl hexec hlayout hmirror' =>
      obtain ⟨hok, hstamp, hmirror⟩ := h
      rename_i p p' m o ops
      obtain ⟨hok', hview⟩ := hok.setOrder o.indices
      simp only [Unchecked, table, view_congr hlayout hmirror', hview]
      exact ⟨⟨hok'.congr hlayout, hstamp, hmirror⟩, hlayout.N, rfl⟩
  | rtSetOrder =>
      rename_i maxTasks s m
      obtain ⟨hok, hstamp⟩ := h
      have hlen : (order.take maxTasks).length ≤ maxTasks := List.length_take_le _ _
      refine ⟨⟨hok, ?_⟩, rfl, funext fun k => ?_⟩
      · have hapart := hok.apart
        rw [setOrder_eq, loadOrderSize, ByteMem.load32, ByteMem.load_storeWords_of_disjoint]
        · exact hstamp
        · simp only [SchedRt.ctrlSize, kCtrlRowsOff, kCtrlRowSize] at hapart
          simp only [kCtrlOrderSizeOff]
          omega
      · simp only [table, cap, tableWord, setOrder_eq]
        by_cases hk : k < (order.take maxTasks).length
        · rw [if_pos (hk.trans_le hlen), ByteMem.load32_storeWords _ _ _ hk, overlay,
            List.getElem?_eq_getElem hk]
          rfl
        · rw [overlay_of_ge (not_lt.1 hk), ByteMem.load32,
            ByteMem.load_storeWords_of_disjoint _ _ _ (by omega)]
          rfl

theorem Runs.installs {orders : List (List ℕ)} (hrun : x.Runs orders y) (h : x.Fresh) :
    y.Unchecked ∧ y.cap = x.cap ∧ y.table = installed x.cap orders := by
  induction hrun with
  | nil => exact ⟨h.1, rfl, h.2⟩
  | concat hrun hstep ih =>
      obtain ⟨hun, hcap, htable⟩ := ih
      obtain ⟨hun', hcap', htable'⟩ := hstep.installs hun
      refine ⟨hun', hcap'.trans hcap, ?_⟩
      rw [htable', hcap, htable, installed_concat]

/-- Orders are installed one behind another, whatever they are. -/
theorem exists_runs (x : Installer) (orders : List (List ℕ)) : ∃ y, x.Runs orders y := by
  induction orders using List.reverseRecOn with
  | nil => exact ⟨x, .nil⟩
  | append_singleton orders order ih =>
      obtain ⟨y, hrun⟩ := ih
      cases y with
      | plane p m => exact ⟨_, hrun.concat (.setOrder order)⟩
      | runtime maxTasks s m => exact ⟨_, hrun.concat (.rtSetOrder order)⟩

/-! ## Launches -/

theorem Unchecked.cap_le (h : x.Unchecked) : x.cap ≤ 2 ^ 32 := by
  cases x with
  | plane p m => exact h.1.laid.cap.trans (by decide)
  | runtime maxTasks s m => exact h.1.cap.le.trans (by decide)

/-- An unchecked launch reads the table. -/
theorem Unchecked.launch {C : Config} (h : x.Unchecked) (hC : x.Bakes C) {g : ℕ}
    (hperm : PermutesBelow x.table (min g x.cap)) : PermutesBelow (emitRemap C x.slots x.mem g) g := by
  cases x with
  | plane p m =>
      obtain ⟨⟨hlaid, hbase, hpos, hchan⟩, hstamp, -⟩ := h
      have hmatch : TableMatches (p.view m).table p.N (p.view m).stamp g := Or.inr ⟨hstamp, hperm⟩
      exact emitRemap_permutesBelow (SchedPlane.slots_armed hbase).1 (SchedPlane.slots_armed hbase).2
        (hchan.channelSet hC hbase hpos) (hmatch.slots hC hbase hchan)
  | runtime maxTasks s m =>
      obtain ⟨⟨-, ⟨horder, hposOrder⟩, ⟨hctrl, hposCtrl⟩, -⟩, hstamp⟩ := h
      obtain ⟨hmax, hdirect⟩ := hC
      have harmed : s.slots.taskOrder.Armed ∧ s.slots.ctrl.Armed := by
        simp [RtSlot.Armed, SchedRt.slots, rtBuffer, horder, hctrl, hposOrder.ne', hposCtrl.ne']
      have hlead : ChannelSet C s.slots m := fun hind => by simp [hdirect] at hind
      have htable : ∀ k < min g maxTasks, table (runtime maxTasks s m) k = orderTable C s.slots m k := by
        intro k hk
        have hk : k < maxTasks := hk.trans_le (min_le_right _ _)
        simp [table, hk, orderTable, hdirect, SchedRt.slots, RtSlot.base, rtBuffer, horder]
      refine emitRemap_permutesBelow harmed.1 harmed.2 hlead (Or.inr ⟨?_, ?_⟩)
      · simpa [slots, SchedRt.slots, RtSlot.base, rtBuffer, hctrl] using hstamp
      · rw [hmax]
        exact hperm.congr htable

/-- Behind a call for `k` tasks: the table is a permutation that is the identity from `k` on, and every
    launch of `k` tasks or more gives each task to one block. -/
structure PrefixInstalled (y : Installer) (k : ℕ) : Prop where
  permutes : PermutesBelow y.table y.cap
  tail : ∀ i, k ≤ i → i < y.cap → y.table i = i
  launch : ∀ C, y.Bakes C → ∀ g, k ≤ g → PermutesBelow (emitRemap C y.slots y.mem g) g

end Installer

/-- **Prefixes stay permutations exactly while no order moves what the next one leaves.** In every run of
    `set_order`, `SchedControlPlane.step` and `sched_rt_set_order` calls from a fresh table, each for
    an order of its own. -/
theorem prefixInstalls_iff {x : Installer} (hx : x.Fresh) {orders : List (List ℕ)}
    (horders : ∀ o ∈ orders, IsOrder x.cap o) :
    (∀ done order, done ++ [order] <+: orders → ∀ y, x.Runs (done ++ [order]) y →
      y.PrefixInstalled order.length) ↔ orders.IsChain FixesRest := by
  have hN : x.cap ≤ 2 ^ 32 := hx.1.cap_le
  constructor
  · intro hall
    refine isChain_of_installed_tail hN horders fun done order hdone i hi hlt => ?_
    obtain ⟨y, hrun⟩ := x.exists_runs (done ++ [order])
    obtain ⟨-, hcap, htable⟩ := hrun.installs hx
    rw [← htable]
    exact (hall done order hdone y hrun).tail i hi (hcap ▸ hlt)
  · intro hchain done order hdone y hrun
    obtain ⟨hun, hcap, htable⟩ := hrun.installs hx
    have horder : IsOrder x.cap order := horders order (hdone.subset (by simp))
    have htail : ∀ i, order.length ≤ i → installed x.cap (done ++ [order]) i = i :=
      fun i hi => installed_tail hN horders hchain hdone hi
    have hperm : ∀ g, order.length ≤ g → PermutesBelow y.table g := fun g hg => by
      rw [htable]
      exact installed_permutesBelow hN horder hg fun i hi _ => htail i hi
    refine ⟨hperm _ (hcap ▸ horder.1), fun i hi _ => htable ▸ htail i hi, fun C hC g hg => ?_⟩
    exact hun.launch hC (hperm _ (le_min hg (hcap ▸ horder.1)))

/-- An order of two tasks behind one of three that fixes the third. -/
theorem prefixInstalls_fixed :
    ∃ x : Installer, x.Fresh ∧ x.cap = 3 ∧
      ∀ y, x.Runs [[1, 0, 2], [1, 0]] y → y.PrefixInstalled 2 := by
  obtain ⟨x, hfresh, hcap⟩ := Installer.exists_fresh
  have horders : ∀ o ∈ [[1, 0, 2], [1, 0]], IsOrder x.cap o := by
    rw [hcap]
    decide
  have hchain : [[1, 0, 2], [1, 0]].IsChain FixesRest := by decide
  exact ⟨x, hfresh, hcap,
    (prefixInstalls_iff hfresh horders).2 hchain [[1, 0, 2]] [1, 0] (List.prefix_refl _)⟩

/-- `set_order([2, 1, 0])` and then `set_order([1, 0])`: the table is `[1, 0, 0]`. -/
theorem prefixInstalls_shrunk :
    ∃ x y : Installer, x.Fresh ∧ x.cap = 3 ∧ IsOrder 3 [2, 1, 0] ∧ IsOrder 3 [1, 0] ∧
      x.Runs [[2, 1, 0], [1, 0]] y ∧ y.cap = 3 ∧
      y.table 0 = 1 ∧ y.table 1 = 0 ∧ y.table 2 = 0 ∧ ¬ PermutesBelow y.table 3 := by
  obtain ⟨x, hfresh, hcap⟩ := Installer.exists_fresh
  obtain ⟨y, hrun⟩ := x.exists_runs [[2, 1, 0], [1, 0]]
  obtain ⟨-, hcap', htable⟩ := hrun.installs hfresh
  rw [hcap] at hcap' htable
  refine ⟨x, y, hfresh, hcap, by decide, by decide, hrun, hcap', ?_⟩
  rw [htable]
  decide

end SchedPass
