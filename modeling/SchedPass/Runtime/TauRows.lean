import SchedPass.Runtime.ShedBudget

set_option autoImplicit false

/-! # Requested budgets and 16-bit rows (`SchedPlane.set_row`, `SchedPlane.set_rows`)

A row holds the low 16 bits of the requested `tau`, and a row of 0 means no cap. Whatever calls come
between, a push publishes for every row the last request (`RowsHold`), and the kernel's budget is the cap
of that request modulo `2 ^ 16`. So a request from `2 ^ 16` on is cut down, to no cap at all where it is a
multiple. -/

namespace SchedPass

namespace SchedPlane

/-- One entry of a column argument of `set_rows`; `none` when the index is out of range. -/
def rowEntry (column : Option (List ℕ)) (fallback i : ℕ) : Option ℕ :=
  match column with
  | none => some fallback
  | some xs => xs[i]?

/-- `set_rows` as the calls of its loop; `q` holds bit patterns, and the defaults are 0, 0 and
    `HINT_AUTO`. -/
def setRows (p : SchedPlane) (q tau hint : Option (List ℕ)) (n : Option ℕ) : Option (List PlaneOp) :=
  (List.range (n.getD p.N)).mapM fun i => do
    let qi ← rowEntry q 0 i
    let taui ← rowEntry tau 0 i
    let hinti ← rowEntry hint kHintAuto i
    return .setRow i qi taui hinti

/-- A list of calls: the plane afterwards and the writes issued. -/
def execAll (p : SchedPlane) : List PlaneOp → Option (SchedPlane × List MemOp)
  | [] => some (p, [])
  | op :: ops => do
      let (p₁, w₁) ← p.exec op
      let (p₂, w₂) ← p₁.execAll ops
      return (p₂, w₁ ++ w₂)

end SchedPlane

/-! ## Requests -/

/-- The last `tau` requested for each row. -/
def requestTau (req : ℕ → Option ℕ) : PlaneOp → ℕ → Option ℕ
  | .setRow i _ tau _ => Function.update req i (some tau)
  | _ => req

def requestedTau (ops : List PlaneOp) : ℕ → Option ℕ := ops.foldl requestTau fun _ => none

/-- The mirror holds the requests, as 16 bits. -/
def SchedPlane.RowsHold (p : SchedPlane) (req : ℕ → Option ℕ) : Prop :=
  ∀ i, ∀ tau ∈ req i, i < p.N ∧ p.ctrlHost.load (rowOff i + kCtrlRowTauOff) 2 = tau % 2 ^ 16

namespace SchedPlane

variable {p p' : SchedPlane} {w : List MemOp} {req : ℕ → Option ℕ}

/-- A mirror word below the rows is none of theirs. -/
theorem RowsHold.packU32 (h : p.RowsHold req) {host : ByteMem} {off v : ℕ}
    (hpack : packU32 p.ctrlHost off v = some host) (hoff : off + 4 ≤ ctrlRowsOff)
    (hN : p'.N = p.N) (hhost : p'.ctrlHost = host) : p'.RowsHold req := by
  intro i tau htau
  obtain ⟨hi, hload⟩ := h i tau htau
  obtain ⟨-, rfl⟩ := packU32_eq_some hpack
  refine ⟨hN ▸ hi, ?_⟩
  rw [hhost, ← hload]
  refine ByteMem.load_store_of_disjoint _ _ _ (Or.inr ?_)
  rw [ByteMem.length_toBytes]
  simp only [ctrlRowsOff] at hoff
  simp only [rowOff, kCtrlRowsOff]
  omega

theorem RowsHold.setRow (h : p.RowsHold req) {i q tau hint : ℕ}
    (hset : p.setRow i q tau hint = some p') :
    p'.RowsHold (Function.update req i (some tau)) := by
  have hoff : ctrlRowsOff + rowSize * i = rowOff i := by
    simp only [ctrlRowsOff, rowSize, rowOff, kCtrlRowSize, kCtrlRowsOff]
    omega
  rw [SchedPlane.setRow] at hset
  split at hset
  · next hbytes =>
      cases hset
      intro j tau' htau'
      show j < p.N ∧ (p.ctrlHost.store _ _).load _ 2 = _
      rw [hoff]
      by_cases hj : j = i
      · subst hj
        rw [Function.update_self] at htau'
        cases htau'
        refine ⟨?_, load_row_tau _ _ _ _ _⟩
        simp only [ctrlRowsOff, rowSize, ctrlBytes] at hbytes
        omega
      · rw [Function.update_of_ne hj] at htau'
        obtain ⟨hlt, hload⟩ := h j tau' htau'
        refine ⟨hlt, (ByteMem.load_store_of_disjoint _ _ _ ?_).trans hload⟩
        simp only [List.length_append, ByteMem.length_toBytes, rowOff, kCtrlRowTauOff, kCtrlRowSize]
        omega
  · cases hset

/-- One call takes its request over and keeps the others. -/
theorem RowsHold.exec (h : p.RowsHold req) {op : PlaneOp} (hexec : p.exec op = some (p', w)) :
    p'.RowsHold (requestTau req op) := by
  cases op with
  | setOrder tasks =>
      cases hexec
      exact h
  | clearTimer =>
      cases hexec
      exact h
  | push =>
      obtain ⟨host, hpack, heq⟩ := Option.map_eq_some_iff.1 hexec
      cases heq
      exact h.packU32 hpack (by decide) rfl rfl
  | setRow i q tau hint =>
      obtain ⟨p₁, hset, heq⟩ := Option.map_eq_some_iff.1 hexec
      cases heq
      exact h.setRow hset
  | setOrderSize n =>
      obtain ⟨host, hpack, rfl, rfl⟩ := exists_packed hexec
      exact h.packU32 hpack (by decide) rfl rfl
  | setNumTasks n =>
      obtain ⟨host, hpack, rfl, rfl⟩ := exists_packed hexec
      exact h.packU32 hpack (by decide) rfl rfl
  | setTimerEnabled on =>
      obtain ⟨host, hpack, rfl, rfl⟩ := exists_packed hexec
      exact h.packU32 hpack (by decide) rfl rfl

theorem execAll_cons_eq_some {op : PlaneOp} {ops : List PlaneOp} :
    p.execAll (op :: ops) = some (p', w) ↔
      ∃ p₁ w₁ w₂, p.exec op = some (p₁, w₁) ∧ p₁.execAll ops = some (p', w₂) ∧ w = w₁ ++ w₂ := by
  simp only [execAll, Option.bind_eq_bind, Option.bind_eq_some_iff, Prod.exists, Option.pure_def,
    Option.some.injEq, Prod.mk.injEq]
  constructor
  · rintro ⟨p₁, w₁, hexec, p₂, w₂, hrest, rfl, rfl⟩
    exact ⟨p₁, w₁, w₂, hexec, hrest, rfl⟩
  · rintro ⟨p₁, w₁, w₂, hexec, hrest, rfl⟩
    exact ⟨p₁, w₁, hexec, p', w₂, hrest, rfl, rfl⟩

theorem RowsHold.execAll (h : p.RowsHold req) {ops : List PlaneOp}
    (hrun : p.execAll ops = some (p', w)) :
    p'.RowsHold (ops.foldl requestTau req) ∧ p.SameLayout p' := by
  induction ops generalizing p req w with
  | nil =>
      cases hrun
      exact ⟨h, .refl _⟩
  | cons op ops ih =>
      obtain ⟨p₁, w₁, w₂, hexec, hrest, -⟩ := execAll_cons_eq_some.1 hrun
      obtain ⟨hhold, hsame⟩ := ih (h.exec hexec) hrest
      exact ⟨hhold, (sameLayout_exec hexec).trans hsame⟩

end SchedPlane

/-- Row `i` of `set_rows` is a request of entry `i`. -/
def IsRow (taus : List ℕ) (i : ℕ) (op : PlaneOp) : Prop :=
  ∃ q tau hint, op = .setRow i q tau hint ∧ taus[i]? = some tau

theorem foldl_requestTau_rows {taus : List ℕ} {row : ℕ → Option PlaneOp}
    (hrow : ∀ i op, row i = some op → IsRow taus i op) {is : List ℕ} (hnodup : is.Nodup)
    {ops : List PlaneOp} (h : is.mapM row = some ops) (req : ℕ → Option ℕ) (j : ℕ) :
    ops.foldl requestTau req j = if j ∈ is then taus[j]? else req j := by
  induction is generalizing ops req with
  | nil =>
      rw [List.mapM_nil] at h
      cases h
      rfl
  | cons i is ih =>
      obtain ⟨hi, hnodup⟩ := List.nodup_cons.1 hnodup
      rw [List.mapM_cons] at h
      simp only [Option.bind_eq_bind, Option.bind_eq_some_iff, Option.pure_def,
        Option.some.injEq] at h
      obtain ⟨op, hop, ops, hops, rfl⟩ := h
      obtain ⟨q, tau, hint, rfl, htau⟩ := hrow i op hop
      rw [List.foldl_cons, ih hnodup hops]
      by_cases hj : j = i
      · subst hj
        rw [if_neg hi, if_pos List.mem_cons_self, htau]
        exact Function.update_self ..
      · have hmem : j ∈ i :: is ↔ j ∈ is := by simp [hj]
        simp only [hmem, requestTau, Function.update_of_ne hj]

/-- `set_rows` requests its column. -/
theorem requestedTau_setRows {p : SchedPlane} {q hint : Option (List ℕ)} {taus : List ℕ}
    {n : Option ℕ} {ops : List PlaneOp} (h : p.setRows q (some taus) hint n = some ops) {i : ℕ}
    (hi : i < n.getD p.N) : requestedTau ops i = taus[i]? := by
  have hrows : ops.foldl requestTau (fun _ => none) i
      = if i ∈ List.range (n.getD p.N) then taus[i]? else none := by
    refine foldl_requestTau_rows ?_ List.nodup_range h (fun _ => none) i
    intro j op hop
    simp only [Option.bind_eq_bind, Option.bind_eq_some_iff, Option.pure_def,
      Option.some.injEq] at hop
    obtain ⟨qj, -, tauj, htau, hintj, -, rfl⟩ := hop
    exact ⟨qj, tauj, hintj, rfl, htau⟩
  rw [requestedTau, hrows, if_pos (List.mem_range.2 hi)]

/-! ## Published budgets -/

/-- `b` is the budget that a kernel compiled against a plane derives for `task` after some calls of
    which the last request for its row was `tau`, and a push. -/
inductive BudgetPublished (C : WeaveConfig) (task tau : ℕ) : ℕ → Prop
  | push {p p₁ p₂ : SchedPlane} {ops : List PlaneOp} {w w' : List MemOp} (m : ByteMem)
      (hbase : 0 < p.base) (hC : p.Bakes C.toConfig) (hrun : p.execAll ops = some (p₁, w))
      (hreq : requestedTau ops task = some tau) (hpush : p₁.push = some (p₂, w')) :
      BudgetPublished C task tau (emitBudget C p.slots (applyOps (applyOps m w) w') task)

/-- What a budget is asked to keep of its request: 0 is no cap, a positive request is a cap, of its own
    value within 16 bits, and no smaller positive request has a larger budget. -/
def BudgetSurvives (C : WeaveConfig) (task tau : ℕ) : Prop :=
  ∀ b, BudgetPublished C task tau b →
    (tau = 0 → b = noCap) ∧ (1 ≤ tau → b ≠ noCap ∧ (tau ≤ 65535 → b = tau)) ∧
      ∀ tau' b', 1 ≤ tau' → tau' ≤ tau → BudgetPublished C task tau' b' → b' ≤ b

variable {C : WeaveConfig} {task tau : ℕ}

theorem BudgetPublished.eq {b : ℕ} (h : BudgetPublished C task tau b) : b = capOf (tau % 2 ^ 16) := by
  cases h with
  | @push p p₁ p₂ ops w w' m hbase hC hrun hreq hpush =>
      have hstart : p.RowsHold fun _ => none := fun i tau htau => nomatch htau
      obtain ⟨hhold, hsame⟩ := hstart.execAll hrun
      obtain ⟨hlt, hload⟩ := hhold task tau hreq
      have harmed : p.slots.ctrl.Armed := (SchedPlane.slots_armed hbase).2
      have htask : task < C.maxTasks := by rw [hC.maxTasks, ← hsame.N]; exact hlt
      have hbytes : rowOff task + kCtrlRowTauOff + 2 ≤ p₁.ctrlBytes := by
        simp only [rowOff, kCtrlRowTauOff, kCtrlRowSize, kCtrlRowsOff, SchedPlane.ctrlBytes,
          ctrlRowsOff, rowSize]
        omega
      have hlo : 4 ≤ rowOff task + kCtrlRowTauOff := Nat.le_add_left 4 _
      rw [emitBudget_of_armed harmed htask, loadTau, SchedPlane.base_ctrl hbase, ← hsame.base,
        SchedPlane.load_push hpush _ hlo hbytes, hload]

theorem exists_budgetPublished (htask : task < C.maxTasks) (tau : ℕ) :
    BudgetPublished C task tau (capOf (tau % 2 ^ 16)) := by
  let p : SchedPlane :=
    { N := C.maxTasks, base := 1, orderDev := if C.orderIndirect then some 0 else none }
  have hset : ∃ p₁, p.setRow task 0 tau 0 = some p₁ ∧ p₁.generation = 0 := by
    refine ⟨_, if_pos ?_, rfl⟩
    simp only [p, ctrlRowsOff, rowSize, SchedPlane.ctrlBytes]
    omega
  obtain ⟨p₁, hset, hgen⟩ := hset
  have hrun : p.execAll [.setRow task 0 tau 0] = some (p₁, []) := by
    refine SchedPlane.execAll_cons_eq_some.2 ⟨p₁, [], [], ?_, rfl, rfl⟩
    rw [SchedPlane.exec, hset]
    rfl
  have hpush : ∃ p₂ w', p₁.push = some (p₂, w') := by
    simp only [SchedPlane.push, SchedPlane.packU32, hgen]
    exact ⟨_, _, rfl⟩
  obtain ⟨p₂, w', hpush⟩ := hpush
  have hbakes : p.Bakes C.toConfig := by
    refine ⟨rfl, ?_⟩
    show C.orderIndirect = (if C.orderIndirect then some 0 else none).isSome
    cases C.orderIndirect <;> rfl
  have hreq : requestedTau [.setRow task 0 tau 0] task = some tau := by
    simp [requestedTau, requestTau]
  have hb := BudgetPublished.push ByteMem.zeroed Nat.one_pos hbakes hrun hreq hpush
  rwa [hb.eq] at hb

/-- **A budget survives its row exactly below `2 ^ 16`.** -/
theorem budgetSurvives_iff (htask : task < C.maxTasks) : BudgetSurvives C task tau ↔ tau < 2 ^ 16 := by
  constructor
  · intro h
    by_contra hlarge
    have hlarge := not_lt.1 hlarge
    obtain ⟨-, hcap, hmono⟩ := h _ (exists_budgetPublished htask tau)
    obtain ⟨hfinite, -⟩ := hcap (by omega)
    -- the request `2 ^ 16` is not larger, and has no cap
    have hwrap := hmono (2 ^ 16) _ (by omega) hlarge (exists_budgetPublished htask (2 ^ 16))
    have hlt : tau % 2 ^ 16 < 2 ^ 16 := Nat.mod_lt _ (by omega)
    rw [Nat.mod_self, capOf_zero] at hwrap
    by_cases hzero : tau % 2 ^ 16 = 0
    · exact hfinite (by rw [hzero, capOf_zero])
    · rw [capOf_of_pos (Nat.pos_of_ne_zero hzero), noCap] at hwrap
      omega
  · intro hsmall b hb
    have hb : b = capOf tau := by rw [hb.eq, Nat.mod_eq_of_lt hsmall]
    refine ⟨?_, fun hpos => ?_, fun tau' b' hpos hle hb' => ?_⟩
    · rintro rfl
      exact hb
    · rw [hb, capOf_of_pos hpos, noCap]
      exact ⟨by omega, fun _ => rfl⟩
    · rw [hb'.eq, hb, Nat.mod_eq_of_lt (by omega), capOf_of_pos hpos, capOf_of_pos (by omega)]
      exact hle

theorem budgetSurvives_largest : BudgetSurvives { maxTasks := 1 } 0 65535 :=
  (budgetSurvives_iff (by decide)).2 (by decide)

/-- `set_rows(tau=[65536])` on a plane of one row: the request is large, and there is no cap. -/
theorem setRows_no_cap :
    ∃ ops, ({ N := 1, base := 1 } : SchedPlane).setRows none (some [65536]) none none = some ops ∧
      requestedTau ops 0 = some 65536 ∧
      BudgetPublished { maxTasks := 1 } 0 65536 noCap ∧ ¬BudgetSurvives { maxTasks := 1 } 0 65536 := by
  have hpublished : BudgetPublished { maxTasks := 1 } 0 65536 noCap :=
    exists_budgetPublished (by decide) 65536
  have hset : ({ N := 1, base := 1 } : SchedPlane).setRows none (some [65536]) none none
      = some [.setRow 0 0 65536 kHintAuto] := rfl
  refine ⟨_, hset, requestedTau_setRows hset (by decide), hpublished, fun hsurvives => ?_⟩
  exact ((hsurvives noCap hpublished).2.1 (by decide)).1 rfl

end SchedPass
