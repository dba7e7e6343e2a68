import SchedPass.Plugin.TableInvariant

set_option autoImplicit false

/-! # A begin hook that raises

The hook writes the order table at once and publishes the stamp with its last plane call, so an
exception between the two leaves the new table under the old stamp. The host state it leaves is the
one after a prefix of the hook's actions; `begin_failureAtomic_iff` says for which prefixes the plane
is still consistent. -/

namespace SchedPass

variable {K : Type}

/-! ## The calls that a prefix has made -/

/-- The action's call, if it is one that writes or publishes the table or its stamp. -/
def HookAct.tableOp : HookAct K → Option PlaneOp
  | .plane (.setOrder tasks) => some (.setOrder tasks)
  | .plane (.setOrderSize n) => some (.setOrderSize n)
  | .plane .push => some .push
  | _ => none

def tableOps (as : List (HookAct K)) : List PlaneOp := as.filterMap HookAct.tableOp

theorem foldl_onView_snd {N : ℕ} (as : List (HookAct K)) (s : Option ℕ × PlaneView) :
    (as.foldl (HookAct.onView N) s).2 = (tableOps as).foldl (PlaneView.exec N) s.2 := by
  induction as generalizing s with
  | nil => rfl
  | cons a as ih =>
      rw [List.foldl_cons, ih, tableOps, tableOps]
      cases a with
      | plane op => cases op <;> rfl
      | _ => rfl

theorem tableOps_append (as bs : List (HookAct K)) :
    tableOps (as ++ bs) = tableOps as ++ tableOps bs := List.filterMap_append

theorem tableOps_consumeActs {st : PluginState K} {b : Batch K} :
    tableOps (consumeActs st b) = [] := by
  unfold consumeActs
  split
  · rfl
  · split
    · rfl
    · split <;> rfl

theorem tableOps_hintActs {b : Batch K} {n : ℕ} : tableOps (hintActs b n) = [] := by
  unfold hintActs
  split
  · rfl
  · refine List.filterMap_eq_nil_iff.2 fun a ha => ?_
    obtain ⟨k, -, rfl⟩ := List.mem_map.1 ha
    rfl

/-- What a begin hook does to the table and the stamp when it is not interrupted. -/
inductive TableShape (N : ℕ) : List PlaneOp → Prop
  | untouched : TableShape N []
  | published : TableShape N [.push]
  | installed {order : List ℕ} {n : ℕ} (hperm : order.Perm (List.range n)) (hn : n ≤ N) :
      TableShape N [.setOrder order, .setOrderSize n, .push]
  | retired : TableShape N [.setOrder (List.range N), .setOrderSize 0, .push]

variable [Zero K] {cfg : PluginConfig K} {st : PluginState K} {b : Batch K}

theorem tableShape_plan (hsort : SortsIndices cfg.argsort) {reqs : List (Req K)} {costs : List K}
    (hlen : costs.length = b.ntiles reqs) (hn : b.ntiles reqs ≤ cfg.maxTasks) :
    TableShape cfg.maxTasks (tableOps (planActs cfg st b reqs costs)) := by
  have hclear : tableOps (if isProbe cfg st then [(.plane .clearTimer : HookAct K)] else []) = [] := by
    split <;> rfl
  have hinstall : ∀ R, TableShape cfg.maxTasks
      [.setOrder (regionOrder cfg.float cfg.blockSum cfg.argsort cfg.lptBlock costs R),
        .setOrderSize (b.ntiles reqs), .push] := fun R =>
    .installed (hlen ▸ regionOrder_perm hsort cfg.float cfg.blockSum cfg.lptBlock costs R) hn
  unfold planActs
  simp only [tableOps_append, hclear]
  by_cases hobs : cfg.observeOnly = true
  · simp only [hobs, if_true]
    exact .published
  · simp only [hobs, Bool.false_eq_true, if_false, tableOps_append, tableOps_hintActs, branchActs]
    cases branch cfg st b (b.ntiles reqs) with
    | arm => exact hinstall _
    | retire =>
        by_cases hmemo : st.orderN.isSome = true
        · simp only [hmemo, if_true]
          exact .retired
        · simp only [hmemo, Bool.false_eq_true, if_false]
          exact .published
    | queued => exact hinstall 0
    | keep => exact .published

theorem tableShape_begin (hsort : SortsIndices cfg.argsort) :
    TableShape cfg.maxTasks (tableOps (onBatchBegin cfg st b)) := by
  unfold onBatchBegin
  by_cases hcad : onCadence cfg st = true
  · cases hreqs : b.reqs with
    | none =>
        simp only [hcad, Bool.not_true, Bool.false_eq_true, if_false]
        exact .untouched
    | some reqs =>
        simp only [hcad, Bool.not_true, Bool.false_eq_true, if_false]
        by_cases hcap : b.ntiles reqs > cfg.maxTasks
        · simp only [if_pos hcap]
          exact .untouched
        · simp only [if_neg hcap]
          cases hcosts : b.tileCosts reqs with
          | none =>
              have hnone : tableOps (consumeActs st b ++ [.setClcR (resolveR cfg st b)] ++ [.raise])
                  = [] := by
                simp only [tableOps_append, tableOps_consumeActs]
                rfl
              have hall : TableShape cfg.maxTasks (tableOps
                  (consumeActs st b ++ [.setClcR (resolveR cfg st b)] ++ [.raise])) :=
                hnone ▸ .untouched
              exact hall
          | some costs =>
              have hplan : TableShape cfg.maxTasks (tableOps (planActs cfg st b reqs costs)) :=
                tableShape_plan hsort (Batch.tileCosts_length hcosts) (not_lt.1 hcap)
              have hsplit : tableOps (consumeActs st b ++ [.setClcR (resolveR cfg st b)]
                  ++ planActs cfg st b reqs costs) = tableOps (planActs cfg st b reqs costs) := by
                simp only [tableOps_append, tableOps_consumeActs]
                rfl
              exact hsplit.symm ▸ hplan
  · simp only [hcad, Bool.not_false, if_true]
    exact .untouched

/-! ## Where it may stop -/

/-- The order can stand in the table while the stamp stays: under stamp 0 it is the identity; under a
    longer stamp its first entries, or the table's, keep to themselves. -/
def FitsStamp (v : PlaneView) (order : List ℕ) : Prop :=
  if v.stamp = 0 then order = List.range order.length
  else if v.stamp ≤ order.length then ∀ i ∈ order.take v.stamp, i < v.stamp
  else ∀ k < order.length, v.table k < order.length

instance (v : PlaneView) (order : List ℕ) : Decidable (FitsStamp v order) := by
  unfold FitsStamp
  infer_instance

/-- The hook may stop after the calls `ops`: an order it has written and not published fits the old
    stamp; what it has published without writing an order is a stamp that the table had earned; and
    no install of zero tiles was published over another table than the identity. -/
structure SafeStop (N : ℕ) (v : PlaneView) (ops : List PlaneOp) : Prop where
  written : ∀ order, .setOrder order ∈ ops → .push ∉ ops → FitsStamp v order
  published : .push ∈ ops → (∀ order, .setOrder order ∉ ops) →
    ({ v with stamp := v.mirror } : PlaneView).Consistent N
  empty : .push ∈ ops → .setOrder [] ∈ ops → ∀ k < N, v.table k = k

omit [Zero K] in
/-- An order written over a consistent table, under the stamp of before. -/
theorem consistent_overlay_iff {N n : ℕ} {v : PlaneView} {order : List ℕ} (hN : N ≤ maxTasksLimit)
    (hcons : v.Consistent N) (hperm : order.Perm (List.range n)) (hn : n ≤ N) :
    ({ v with table := overlay (order.take N) v.table } : PlaneView).Consistent N
      ↔ FitsStamp v order := by
  have hlen : order.length = n := by rw [hperm.length_eq, List.length_range]
  have hnew : ∀ k (hk : k < order.length), overlay (order.take N) v.table k = order[k] :=
    fun k hk => overlay_perm_of_lt (hN.trans (by decide)) hperm hn v.table hk
  have hold : ∀ k, n ≤ k → overlay (order.take N) v.table k = v.table k :=
    fun k hk => overlay_perm_of_ge hperm hn v.table hk
  have hbelow := overlay_permutesBelow (hN.trans (by decide)) hperm hn v.table
  rcases hcons with ⟨hzero, hid⟩ | ⟨hpos, hle, htable⟩
  · rw [FitsStamp, if_pos hzero]
    constructor
    · rintro (⟨-, hident⟩ | ⟨hpos, -⟩)
      · refine List.ext_getElem (by simp) fun k hk _ => ?_
        rw [← hnew k hk, List.getElem_range]
        exact hident k (by omega)
      · exact absurd (hzero ▸ hpos) (lt_irrefl 0)
    · intro horder
      refine Or.inl ⟨hzero, fun k hk => ?_⟩
      rcases Nat.lt_or_ge k n with hkn | hkn
      · refine (hnew k (hlen.symm ▸ hkn)).trans ?_
        rw [List.getElem_of_eq horder, List.getElem_range]
      · exact (hold k hkn).trans (hid k hk)
  · have hiff : ({ v with table := overlay (order.take N) v.table } : PlaneView).Consistent N
        ↔ PermutesBelow (overlay (order.take N) v.table) v.stamp :=
      ⟨fun h => h.elim (fun h => absurd h.1 hpos.ne') fun h => h.2.2, fun h => Or.inr ⟨hpos, hle, h⟩⟩
    rw [hiff, FitsStamp, if_neg hpos.ne', hlen]
    split
    · next hshort =>
        -- the stamp's tiles are among the order's
        have hentry : (∀ i ∈ order.take v.stamp, i < v.stamp) ↔
            ∀ k < v.stamp, overlay (order.take N) v.table k < v.stamp := by
          rw [List.forall_mem_iff_getElem]
          constructor
          · intro h k hk
            have hget := h k (by rw [List.length_take]; omega)
            rwa [List.getElem_take, ← hnew k (by omega)] at hget
          · intro h k hk
            rw [List.length_take] at hk
            rw [List.getElem_take, ← hnew k (by omega)]
            exact h k (by omega)
        rw [hentry]
        exact ⟨fun h k hk => h.lt hk, fun h => hbelow.restrict hshort h⟩
    · next hlong =>
        exact htable.overwrite_iff hbelow (not_le.1 hlong).le fun i hi _ => hold i hi

omit [Zero K] in
/-- The prefixes of an install or a retirement, with stamp `s`. -/
theorem consistent_prefix_write_iff {N n s : ℕ} {v : PlaneView} {order : List ℕ} {ops : List PlaneOp}
    (hN : N ≤ maxTasksLimit) (hcons : v.Consistent N) (hperm : order.Perm (List.range n)) (hn : n ≤ N)
    (hfull : (⟨overlay (order.take N) v.table, s, s⟩ : PlaneView).Consistent N ↔
      (order = [] → ∀ k < N, v.table k = k))
    (hpre : ops <+: [.setOrder order, .setOrderSize s, .push]) :
    (ops.foldl (PlaneView.exec N) v).Consistent N ↔ SafeStop N v ops := by
  have hwrite := consistent_overlay_iff hN hcons hperm hn
  rcases List.prefix_cons_iff.1 hpre with rfl | ⟨t, rfl, ht⟩
  · exact iff_of_true hcons ⟨by simp, by simp, by simp⟩
  rcases List.prefix_cons_iff.1 ht with rfl | ⟨u, rfl, hu⟩
  · exact hwrite.trans ⟨fun h => ⟨by simpa using h, by simp, by simp⟩,
      fun h => h.written order (by simp) (by simp)⟩
  rcases List.prefix_cons_iff.1 hu with rfl | ⟨z, rfl, hz⟩
  · exact hwrite.trans ⟨fun h => ⟨by simpa using h, by simp, by simp⟩,
      fun h => h.written order (by simp) (by simp)⟩
  obtain rfl := List.prefix_nil.1 hz
  refine hfull.trans ⟨fun h => ⟨by simp, fun _ hno => absurd (hno order) (by simp), ?_⟩, ?_⟩
  · intro _ hmem
    exact h (by simpa [eq_comm] using hmem)
  · rintro h rfl
    exact h.empty (by simp) (by simp)

omit [Zero K] in
/-- Every prefix of a hook's table calls. -/
theorem consistent_prefix_iff {N : ℕ} {v : PlaneView} {full ops : List PlaneOp}
    (hN : N ≤ maxTasksLimit) (hcons : v.Consistent N) (hshape : TableShape N full)
    (hpre : ops <+: full) : (ops.foldl (PlaneView.exec N) v).Consistent N ↔ SafeStop N v ops := by
  have hnil : SafeStop N v [] := ⟨by simp, by simp, by simp⟩
  cases hshape with
  | untouched =>
      obtain rfl := List.prefix_nil.1 hpre
      exact iff_of_true hcons hnil
  | published =>
      rcases List.prefix_cons_iff.1 hpre with rfl | ⟨t, rfl, ht⟩
      · exact iff_of_true hcons hnil
      · obtain rfl := List.prefix_nil.1 ht
        exact ⟨fun h => ⟨by simp, fun _ _ => h, by simp⟩, fun h => h.published (by simp) (by simp)⟩
  | @installed order n hperm hn =>
      refine consistent_prefix_write_iff hN hcons hperm hn ?_ hpre
      rcases Nat.eq_zero_or_pos n with rfl | hpos
      · obtain rfl := hperm.eq_nil
        exact (consistent_installed_nil_iff v).trans ⟨fun h _ => h, fun h => h rfl⟩
      · have hne : order ≠ [] := by
          rintro rfl
          exact absurd (List.range_eq_nil.1 hperm.symm.eq_nil) hpos.ne'
        exact iff_of_true (consistent_installed hN v hperm hpos hn) fun hnil => absurd hnil hne
  | retired =>
      refine consistent_prefix_write_iff hN hcons (.refl _) le_rfl ?_ hpre
      refine iff_of_true (Or.inl ⟨rfl, fun k hk => installed_range hN v hk⟩) fun hnil k hk => ?_
      exact absurd hk (by simp [List.range_eq_nil.1 hnil])

/-! ## The hook -/

/-- Stamp 0 over the identity table or a stamped permutation prefix, and every launch over it a
    bijection of its tiles. -/
def PlaneSafe (p : SchedPlane) (m : ByteMem) : Prop :=
  (p.view m).Consistent p.N ∧
    ∀ C, p.Bakes C → ∀ g, PermutesBelow (emitRemap C p.slots m g) g

omit [Zero K] in
theorem planeSafe_iff {p : SchedPlane} {m : ByteMem} (halloc : cfg.AllocOk) (hof : PlaneOf cfg p m) :
    PlaneSafe p m ↔ (p.view m).Consistent p.N := by
  refine ⟨And.left, fun h => ⟨h, fun C hC g => h.bijective hC ?_ hof.channel ?_ g⟩⟩
  · rw [hof.base]
    exact halloc.base_pos
  · rw [hof.orderDev]
    exact fun d hd => (halloc.order d hd).2.1

/-- What a prefix of the hook's actions leaves. -/
theorem view_begin_prefix (halloc : cfg.AllocOk) {h h' : Host K} {p : SchedPlane} {m : ByteMem}
    {w : List MemOp} (hp : h.plane = some p) (hof : PlaneOf cfg p m) (b : Batch K) (stop : ℕ)
    (hrun : h.acts cfg ((onBatchBegin cfg h.plugin b).take stop) = some (h', w)) :
    ∃ p', h'.plane = some p' ∧ PlaneOf cfg p' (applyOps m w) ∧ p'.view (applyOps m w)
      = (tableOps ((onBatchBegin cfg h.plugin b).take stop)).foldl (PlaneView.exec p.N) (p.view m) := by
  obtain ⟨p', hp', hsame, hchan, hview⟩ := acts_onView (m := m) (hof.laid halloc) hp hrun
  refine ⟨p', hp', ⟨hsame.N.trans hof.N, hsame.base.trans hof.base, hsame.timerDev.trans hof.timerDev,
    hsame.orderDev.trans hof.orderDev, hof.cap, hchan hof.channel⟩, ?_⟩
  rw [← foldl_onView_snd _ (h.plugin.orderN, p.view m), ← hview]

/-- **A begin hook that raises.** After any prefix of the hook's actions over a consistent plane, the
    plane is safe exactly if the prefix may stop there. -/
theorem begin_failureAtomic_iff (cfg : PluginConfig K) (halloc : cfg.AllocOk)
    (hsort : SortsIndices cfg.argsort) {h h' : Host K} {p : SchedPlane} {m : ByteMem} {w : List MemOp}
    (hp : h.plane = some p) (hof : PlaneOf cfg p m) (hcons : (p.view m).Consistent p.N) (b : Batch K)
    (stop : ℕ) (hrun : h.acts cfg ((onBatchBegin cfg h.plugin b).take stop) = some (h', w)) :
    ∃ p', h'.plane = some p' ∧ (PlaneSafe p' (applyOps m w) ↔
      SafeStop p.N (p.view m) (tableOps ((onBatchBegin cfg h.plugin b).take stop))) := by
  obtain ⟨p', hp', hof', hview⟩ := view_begin_prefix halloc hp hof b stop hrun
  have hshape : TableShape cfg.maxTasks (tableOps (onBatchBegin cfg h.plugin b)) :=
    tableShape_begin hsort
  have hcap := hof.cap
  have hN : p'.N = p.N := hof'.N.trans hof.N.symm
  rw [← hof.N] at hshape hcap
  refine ⟨p', hp', (planeSafe_iff halloc hof').trans ?_⟩
  rw [hview, hN]
  exact consistent_prefix_iff hcap hcons hshape ((List.take_prefix _ _).filterMap _)

/-! ## Two stops behind an install -/

/-- The plugin after the hooks of a batch with costs 2, 1, 3. -/
def installedPlugin : PluginState ℕ where
  step := 1
  timerArmed := true
  binding := some ⟨[(0, 2), (0, 1), (0, 3)], none, 3⟩
  pending := some (some ⟨[(0, 2), (0, 1), (0, 3)], none, 3⟩)
  orderN := some 3
  inflight := true

/-- Two requests in two tiles; the second tile's entry is negative, and clamped for the costs. -/
def splitBatch : Batch ℕ where
  reqs := some [⟨0, 2, 2⟩, ⟨1, 1, 1⟩]
  tileToReq := some [1, -5]
  hintRows := some fun k => (k, 1)

/-- The next batch, up to action `stop`, behind the hooks of a batch with costs 2, 1, 3. -/
def stoppedRun (b : Batch ℕ) (stop : ℕ) : Option (PluginState ℕ) :=
  ((Process.boot ByteMem.zeroed 0).call planConfig (.begin (unsplitBatch [2, 1, 3]))).bind fun s =>
    (s.call planConfig .finish).bind fun s =>
      (s.host.acts planConfig ((onBatchBegin planConfig s.host.plugin b).take stop)).map fun _ =>
        s.host.plugin

theorem exists_stoppedRun {b : Batch ℕ} {stop : ℕ} (h : stoppedRun b stop = some installedPlugin) :
    ∃ s₁ s₂ h' w p table,
      (Process.boot ByteMem.zeroed 0).call planConfig (.begin (unsplitBatch [2, 1, 3])) = some s₁ ∧
      s₁.call planConfig .finish = some s₂ ∧ s₂.host.plugin = installedPlugin ∧
      s₂.host.acts planConfig ((onBatchBegin planConfig s₂.host.plugin b).take stop) = some (h', w) ∧
      s₂.host.plane = some p ∧ PlaneOf planConfig p s₂.mem ∧ (p.view s₂.mem).Consistent p.N ∧
      p.view s₂.mem = ⟨overlay [2, 0, 1] table, 3, 3⟩ := by
  obtain ⟨s₁, hs₁, hrest⟩ := Option.bind_eq_some_iff.1 h
  obtain ⟨s₂, hs₂, hrest⟩ := Option.bind_eq_some_iff.1 hrest
  obtain ⟨⟨h', w⟩, hrun, hplugin⟩ := Option.map_eq_some_iff.1 hrest
  obtain ⟨hok, p, table, hp, hview⟩ := planConfig_installed hs₁ hs₂
  obtain ⟨hof, htable⟩ := hok.born p hp
  refine ⟨s₁, s₂, h', w, p, table, hs₁, hs₂, hplugin, hrun, hp, hof, ?_, hview⟩
  rw [hof.N]
  exact htable.consistent

/-- An install for as many tiles as before may stop right before its `push`. -/
theorem begin_failureAtomic_same_size :
    ∃ (s : Process ℕ) (h' : Host ℕ) (w : List MemOp) (p' : SchedPlane),
      s.host.acts planConfig
        ((onBatchBegin planConfig s.host.plugin (unsplitBatch [1, 2, 3])).take 11) = some (h', w) ∧
      h'.plane = some p' ∧ PlaneSafe p' (applyOps s.mem w) := by
  obtain ⟨s₁, s, h', w, p, table, -, -, hplugin, hrun, hp, hof, hcons, hview⟩ :=
    exists_stoppedRun
      (show stoppedRun (unsplitBatch [1, 2, 3]) 11 = some installedPlugin by decide +kernel)
  obtain ⟨p', hp', hiff⟩ := begin_failureAtomic_iff planConfig planConfig_allocOk
    sortsIndices_argsortDesc hp hof hcons (unsplitBatch [1, 2, 3]) 11 hrun
  have hops : tableOps ((onBatchBegin planConfig installedPlugin (unsplitBatch [1, 2, 3])).take 11)
      = [.setOrder [2, 1, 0], .setOrderSize 3] := by decide
  refine ⟨s, h', w, p', hrun, hp', hiff.2 ?_⟩
  rw [hplugin, hops, hview]
  refine ⟨fun order hmem _ => ?_, by simp, by simp⟩
  obtain rfl : order = [2, 1, 0] := by simpa using hmem
  simp [FitsStamp]

/-- An install of two tiles over three, whose hint rows raise: the table `[1, 0, 1]` stays under the
    stamp 3. -/
theorem begin_raises_behind_install :
    ∃ s₁ s₂ h' w p p',
      (Process.boot ByteMem.zeroed 0).call planConfig (.begin (unsplitBatch [2, 1, 3])) = some s₁ ∧
      s₁.call planConfig .finish = some s₂ ∧
      s₂.host.plane = some p ∧ (p.view s₂.mem).Consistent p.N ∧
      s₂.host.acts planConfig ((onBatchBegin planConfig s₂.host.plugin splitBatch).take 12)
        = some (h', w) ∧
      h'.plane = some p' ∧ ¬ PlaneSafe p' (applyOps s₂.mem w) := by
  obtain ⟨s₁, s₂, h', w, p, table, hs₁, hs₂, hplugin, hrun, hp, hof, hcons, hview⟩ :=
    exists_stoppedRun (show stoppedRun splitBatch 12 = some installedPlugin by decide +kernel)
  obtain ⟨p', hp', -, hview'⟩ := view_begin_prefix planConfig_allocOk hp hof splitBatch 12 hrun
  have hops : tableOps ((onBatchBegin planConfig installedPlugin splitBatch).take 12)
      = [.setOrder [1, 0], .setOrderSize 2] := by decide
  refine ⟨s₁, s₂, h', w, p, p', hs₁, hs₂, hp, hcons, hrun, hp', fun hsafe => ?_⟩
  have hN : p.N = 3 := hof.N
  have hleft : p'.view (applyOps s₂.mem w) = ⟨overlay [1, 0] (overlay [2, 0, 1] table), 3, 2⟩ := by
    rw [hview', hplugin, hops, hview, hN]
    rfl
  have hbad := hsafe.1
  rw [hleft] at hbad
  rcases hbad with ⟨hzero, -⟩ | ⟨-, -, hperm⟩
  · exact absurd hzero (Nat.succ_ne_zero 2)
  · have hlt : ∀ {i : ℕ}, i ≤ 2 → i < 3 := Nat.lt_succ_of_le
    exact absurd (hperm.inj (hlt (Nat.zero_le 2)) (hlt le_rfl) rfl) (by decide)

end SchedPass
