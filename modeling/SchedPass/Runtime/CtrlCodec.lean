import SchedPass.Plane.Windows
import SchedPass.Runtime.TauRows

set_option autoImplicit false

/-! # The control block's three layouts

`SchedPlane` packs the block with `struct`, `sched_rt.h` declares it, and the passes load from offsets of
their own. A call of a setter means the change of one field (`CtrlFields.apply`), and what the passes
load behind a push is what the calls mean, whatever their order (`ctrl_codec`). The host runtime's
mirror has the same bytes behind the same calls, but for the generation. -/

namespace SchedPass

/-! ## What the passes load -/

/-- A task's row; `q` is a bit pattern. -/
structure CtrlRow where
  q : ℕ := 0
  tau : ℕ := 0
  hint : ℕ := 0
  deriving DecidableEq, Repr

/-- The fields of the block; `lambda` holds bit patterns. -/
@[ext]
structure CtrlFields where
  numTasks : ℕ := 0
  lambda : List ℕ := [0, 0, 0, 0]
  flags : ℕ := 0
  orderSize : ℕ := 0
  row : ℕ → CtrlRow := fun _ => {}

/-- The fields of a block of `N` rows at `ctrl`, by the passes' offsets. -/
def decodeCtrl (N : ℕ) (m : ByteMem) (ctrl : ℕ) : CtrlFields where
  numTasks := loadNumTasks m ctrl
  lambda := (List.range 4).map fun k => m.load32 (ctrl + (kCtrlLambdaOff + 4 * k))
  flags := m.load32 (ctrl + kCtrlFlagsOff)
  orderSize := loadOrderSize m ctrl
  row := fun task =>
    if task < N then
      { q := m.load32 (ctrl + rowOff task)
        tau := loadTau m ctrl task
        hint := m.load (ctrl + (rowOff task + kCtrlRowHintOff)) 1 }
    else
      {}

/-! ## Calls -/

/-- A call of a setter of the control block. -/
inductive CtrlCall
  | setLambda (bw l2 smem comp : ℕ)
  | setNumTasks (n : ℕ)
  | setOrderSize (n : ℕ)
  | setTimerEnabled (on : Bool)
  | setRow (i q tau hint : ℕ)
  | setRows (q tau hint : Option (List ℕ)) (n : Option ℕ)

/-- Entry `i` of a column argument of `set_rows`; an absent column is zeros (`HINT_AUTO` is 0). -/
def column (xs : Option (List ℕ)) (i : ℕ) : ℕ :=
  match xs with
  | none => 0
  | some xs => xs.getD i 0

/-- The column has `n` entries of `bits` bits. -/
def ColumnOk (n bits : ℕ) (xs : Option (List ℕ)) : Prop :=
  ∀ l ∈ xs, n ≤ l.length ∧ ∀ x ∈ l, x < 2 ^ bits

/-- The arguments are in range for a block of `N` rows. -/
def CtrlCall.InRange (N : ℕ) : CtrlCall → Prop
  | setLambda bw l2 smem comp => bw < 2 ^ 32 ∧ l2 < 2 ^ 32 ∧ smem < 2 ^ 32 ∧ comp < 2 ^ 32
  | setNumTasks n | setOrderSize n => n < 2 ^ 32
  | setTimerEnabled _ => True
  | setRow i q tau hint => i < N ∧ q < 2 ^ 32 ∧ tau < 2 ^ 16 ∧ hint < 2 ^ 8
  | setRows q tau hint n =>
      n.getD N ≤ N ∧ ColumnOk (n.getD N) 32 q ∧ ColumnOk (n.getD N) 16 tau ∧
        ColumnOk (n.getD N) 8 hint

/-- What a call means: its own field has its value, and the others stay. -/
def CtrlFields.apply (N : ℕ) (f : CtrlFields) : CtrlCall → CtrlFields
  | .setLambda bw l2 smem comp => { f with lambda := [bw, l2, smem, comp] }
  | .setNumTasks n => { f with numTasks := n }
  | .setOrderSize n => { f with orderSize := n }
  -- bit 0, and no other
  | .setTimerEnabled on => { f with flags := 2 * (f.flags / 2) + if on then 0 else 1 }
  | .setRow i q tau hint => { f with row := Function.update f.row i ⟨q, tau, hint⟩ }
  | .setRows q tau hint n =>
      { f with row := fun task =>
          if task < n.getD N then ⟨column q task, column tau task, column hint task⟩
          else f.row task }

/-- The call on the plane. -/
def SchedPlane.ctrlCall (p : SchedPlane) : CtrlCall → Option SchedPlane
  | .setLambda bw l2 smem comp => some (p.setLambda bw l2 smem comp)
  | .setNumTasks n => p.setNumTasks n
  | .setOrderSize n => p.setOrderSize n
  | .setTimerEnabled on => p.setTimerEnabled on
  | .setRow i q tau hint => p.setRow i q tau hint
  | .setRows q tau hint n => do
      let ops ← p.setRows q tau hint n
      let (p', _) ← p.execAll ops
      return p'

namespace SchedRt

/-- `sched_rt_set_lambda`. -/
def setLambda (s : SchedRt) (bw l2 smem comp : ℕ) : SchedRt :=
  let h := s.hCtrl.store kCtrlLambdaOff (ByteMem.toBytes 4 bw)
  let h := h.store (kCtrlLambdaOff + 4) (ByteMem.toBytes 4 l2)
  let h := h.store (kCtrlLambdaOff + 8) (ByteMem.toBytes 4 smem)
  { s with hCtrl := h.store (kCtrlLambdaOff + 12) (ByteMem.toBytes 4 comp) }

/-- `sched_rt_set_num_tasks`. -/
def setNumTasks (s : SchedRt) (n : ℕ) : SchedRt :=
  { s with hCtrl := s.hCtrl.store kCtrlNumTasksOff (ByteMem.toBytes 4 n) }

/-- `sched_rt_set_order_size`. -/
def setOrderSize (s : SchedRt) (n : ℕ) : SchedRt :=
  { s with hCtrl := s.hCtrl.store kCtrlOrderSizeOff (ByteMem.toBytes 4 n) }

/-- `sched_rt_set_timer_enabled`. -/
def setTimerEnabled (s : SchedRt) (on : Bool) : SchedRt :=
  let flags := s.hCtrl.load32 kCtrlFlagsOff
  let flags := if on then Nat.ldiff flags kCtrlFlagTimerOff else flags ||| kCtrlFlagTimerOff
  { s with hCtrl := s.hCtrl.store kCtrlFlagsOff (ByteMem.toBytes 4 flags) }

/-- The call on the host runtime, which sets several rows one by one. -/
def ctrlCall (maxTasks : ℕ) (s : SchedRt) : CtrlCall → SchedRt
  | .setLambda bw l2 smem comp => s.setLambda bw l2 smem comp
  | .setNumTasks n => s.setNumTasks n
  | .setOrderSize n => s.setOrderSize n
  | .setTimerEnabled on => s.setTimerEnabled on
  | .setRow i q tau hint => s.setTask maxTasks i q tau hint
  | .setRows q tau hint n =>
      (List.range (n.getD maxTasks)).foldl
        (fun s i => s.setTask maxTasks i (column q i) (column tau i) (column hint i)) s

end SchedRt

/-! ## What a call writes to the plane's mirror -/

/-- A row as `set_row` packs it. -/
def storeRow (host : ByteMem) (i q tau hint : ℕ) : ByteMem :=
  host.store (rowOff i) (ByteMem.toBytes 4 q ++ ByteMem.toBytes 2 tau ++ ByteMem.toBytes 1 hint)

/-- The flags word that `set_timer_enabled` packs. -/
def timerFlags (flags : ℕ) (on : Bool) : ℕ :=
  Nat.ldiff flags flagTimerOff ||| if on then 0 else flagTimerOff

/-- The mirror behind a call in range. -/
def CtrlCall.write (N : ℕ) (host : ByteMem) : CtrlCall → ByteMem
  | setLambda bw l2 smem comp =>
      host.store kCtrlLambdaOff (ByteMem.toBytes 4 bw ++ ByteMem.toBytes 4 l2
        ++ (ByteMem.toBytes 4 smem ++ ByteMem.toBytes 4 comp))
  | setNumTasks n => host.store kCtrlNumTasksOff (ByteMem.toBytes 4 n)
  | setOrderSize n => host.store kCtrlOrderSizeOff (ByteMem.toBytes 4 n)
  | setTimerEnabled on =>
      host.store kCtrlFlagsOff (ByteMem.toBytes 4 (timerFlags (host.load32 kCtrlFlagsOff) on))
  | setRow i q tau hint => storeRow host i q tau hint
  | setRows q tau hint n =>
      (List.range (n.getD N)).foldl
        (fun host i => storeRow host i (column q i) (column tau i) (column hint i)) host

theorem timerFlags_eq (flags : ℕ) (on : Bool) :
    timerFlags flags on = 2 * (flags / 2) + if on then 0 else 1 := by
  refine Nat.eq_of_testBit_eq fun i => ?_
  rw [timerFlags, Nat.testBit_or, Nat.testBit_ldiff]
  cases i with
  | zero => cases on <;> simp [flagTimerOff, Nat.testBit_zero]
  | succ i =>
      have hhigh : (2 * (flags / 2) + if on then 0 else 1) / 2 = flags / 2 := by
        split <;> omega
      rw [Nat.testBit_succ (2 * (flags / 2) + _), hhigh, ← Nat.testBit_succ]
      cases on <;> simp [flagTimerOff, Nat.testBit_succ]

theorem timerFlags_lt {flags : ℕ} (h : flags < 2 ^ 32) (on : Bool) : timerFlags flags on < 2 ^ 32 := by
  rw [timerFlags_eq]
  split <;> omega

/-! ## Loading back -/

section

variable {N : ℕ} {host : ByteMem}

/-- A write to the header leaves the rows, -/
theorem row_store_header {a : ℕ} {bs : List UInt8} (h : a + bs.length ≤ kCtrlRowsOff) :
    (decodeCtrl N (host.store a bs) 0).row = (decodeCtrl N host 0).row := by
  simp only [kCtrlRowsOff] at h
  funext task
  simp only [decodeCtrl, loadTau, Nat.zero_add, rowOff, kCtrlRowTauOff, kCtrlRowHintOff,
    kCtrlRowsOff, kCtrlRowSize]
  rw [ByteMem.load32_store_of_disjoint _ _ _ (by omega),
    ByteMem.load_store_of_disjoint _ _ _ (by omega),
    ByteMem.load_store_of_disjoint _ _ _ (by omega)]

/-- and the words of the header that it is apart from. -/
theorem load32_store_header {a c : ℕ} {bs : List UInt8} (h : c + 4 ≤ a ∨ a + bs.length ≤ c) :
    (host.store a bs).load32 (0 + c) = host.load32 (0 + c) := by
  rw [Nat.zero_add]
  exact ByteMem.load32_store_of_disjoint _ _ _ h

theorem lambda_store_header {a : ℕ} {bs : List UInt8}
    (h : kCtrlLambdaOff + 16 ≤ a ∨ a + bs.length ≤ kCtrlLambdaOff) :
    (decodeCtrl N (host.store a bs) 0).lambda = (decodeCtrl N host 0).lambda := by
  refine List.map_congr_left fun k hk => load32_store_header ?_
  have hk : k < 4 := List.mem_range.1 hk
  omega

theorem load32_store_word {a v : ℕ} (hv : v < 2 ^ 32) :
    (host.store a (ByteMem.toBytes 4 v)).load32 (0 + a) = v := by
  rw [Nat.zero_add]
  exact ByteMem.load_store_toBytes_of_lt host a 4 hv

theorem lambda_store {bw l2 smem comp : ℕ} (hbw : bw < 2 ^ 32) (hl2 : l2 < 2 ^ 32)
    (hsmem : smem < 2 ^ 32) (hcomp : comp < 2 ^ 32) :
    (decodeCtrl N (host.store kCtrlLambdaOff (ByteMem.toBytes 4 bw ++ ByteMem.toBytes 4 l2
      ++ (ByteMem.toBytes 4 smem ++ ByteMem.toBytes 4 comp))) 0).lambda = [bw, l2, smem, comp] := by
  have hword : ∀ (m : ByteMem) (a v : ℕ), v < 2 ^ 32 →
      (m.store a (ByteMem.toBytes 4 v)).load32 a = v := fun m a v hv =>
    ByteMem.load_store_toBytes_of_lt m a 4 hv
  have hsplit : host.store kCtrlLambdaOff (ByteMem.toBytes 4 bw ++ ByteMem.toBytes 4 l2
      ++ (ByteMem.toBytes 4 smem ++ ByteMem.toBytes 4 comp))
      = (((host.store 20 (ByteMem.toBytes 4 comp)).store 16 (ByteMem.toBytes 4 smem)).store 12
        (ByteMem.toBytes 4 l2)).store 8 (ByteMem.toBytes 4 bw) := by
    simp only [ByteMem.store_append, List.length_append, ByteMem.length_toBytes, kCtrlLambdaOff]
  have hframe : ∀ (m : ByteMem) (a v c : ℕ), c + 4 ≤ a ∨ a + 4 ≤ c →
      (m.store a (ByteMem.toBytes 4 v)).load32 c = m.load32 c := fun m a v c h =>
    ByteMem.load32_store_of_disjoint m a _ (by rwa [ByteMem.length_toBytes])
  rw [hsplit]
  simp only [decodeCtrl, List.range, List.range.loop, List.map_cons, List.map_nil, kCtrlLambdaOff,
    Nat.zero_add, Nat.mul_zero, Nat.add_zero, Nat.mul_one, Nat.reduceMul, Nat.reduceAdd]
  rw [hword _ 8 bw hbw, hframe _ 8 bw 12 (by omega), hword _ 12 l2 hl2, hframe _ 8 bw 16 (by omega),
    hframe _ 12 l2 16 (by omega), hword _ 16 smem hsmem, hframe _ 8 bw 20 (by omega),
    hframe _ 12 l2 20 (by omega), hframe _ 16 smem 20 (by omega), hword _ 20 comp hcomp]

/-- A row loads back, -/
theorem row_storeRow {i q tau hint : ℕ} (hi : i < N) (hq : q < 2 ^ 32) (htau : tau < 2 ^ 16)
    (hhint : hint < 2 ^ 8) :
    (decodeCtrl N (storeRow host i q tau hint) 0).row
      = Function.update (decodeCtrl N host 0).row i ⟨q, tau, hint⟩ := by
  have hlen : (ByteMem.toBytes 4 q ++ ByteMem.toBytes 2 tau ++ ByteMem.toBytes 1 hint).length = 7 := by
    simp only [List.length_append, ByteMem.length_toBytes]
  funext task
  by_cases htask : task = i
  · subst htask
    rw [Function.update_self]
    simp only [decodeCtrl, if_pos hi, Nat.zero_add, loadTau, CtrlRow.mk.injEq]
    refine ⟨?_, ?_, ?_⟩
    · rw [storeRow, List.append_assoc, ByteMem.store_append]
      exact ByteMem.load_store_toBytes_of_lt _ _ 4 hq
    · exact (load_row_tau host (rowOff task) q tau _).trans (Nat.mod_eq_of_lt htau)
    · have hfirst : (ByteMem.toBytes 4 q ++ ByteMem.toBytes 2 tau).length = 6 := by
        simp only [List.length_append, ByteMem.length_toBytes]
      rw [storeRow, ByteMem.store_append, hfirst,
        ByteMem.load_store_of_disjoint _ _ _ (Or.inr (by rw [hfirst, kCtrlRowHintOff]))]
      exact ByteMem.load_store_toBytes_of_lt _ _ 1 hhint
  · rw [Function.update_of_ne htask]
    simp only [decodeCtrl, loadTau, storeRow, Nat.zero_add, rowOff, kCtrlRowTauOff, kCtrlRowHintOff,
      kCtrlRowsOff, kCtrlRowSize]
    rw [ByteMem.load32_store_of_disjoint _ _ _ (by rw [hlen]; omega),
      ByteMem.load_store_of_disjoint _ _ _ (by rw [hlen]; omega),
      ByteMem.load_store_of_disjoint _ _ _ (by rw [hlen]; omega)]

/-- and leaves the header. -/
theorem load32_storeRow {i q tau hint c : ℕ} (hc : c + 4 ≤ kCtrlRowsOff) :
    (storeRow host i q tau hint).load32 c = host.load32 c := by
  refine ByteMem.load32_store_of_disjoint _ _ _ (Or.inl ?_)
  simp only [kCtrlRowsOff] at hc
  simp only [rowOff, kCtrlRowsOff]
  omega

theorem decode_storeRow {i q tau hint : ℕ} (hi : i < N) (hq : q < 2 ^ 32) (htau : tau < 2 ^ 16)
    (hhint : hint < 2 ^ 8) :
    decodeCtrl N (storeRow host i q tau hint) 0
      = (decodeCtrl N host 0).apply N (.setRow i q tau hint) := by
  refine CtrlFields.ext ?_ ?_ ?_ ?_ (row_storeRow hi hq htau hhint)
  · exact load32_storeRow (by decide)
  · refine List.map_congr_left fun k hk => load32_storeRow ?_
    have hk : k < 4 := List.mem_range.1 hk
    simp only [kCtrlLambdaOff, kCtrlRowsOff]
    omega
  · exact load32_storeRow (by decide)
  · exact load32_storeRow (by decide)

theorem ColumnOk.lt {n bits : ℕ} {xs : Option (List ℕ)} (h : ColumnOk n bits xs) (hbits : 0 < 2 ^ bits)
    (i : ℕ) : column xs i < 2 ^ bits := by
  cases xs with
  | none => exact hbits
  | some l =>
      by_cases hi : i < l.length
      · rw [column, List.getD_eq_getElem _ _ hi]
        exact (h l rfl).2 _ (List.getElem_mem hi)
      · rw [column, List.getD_eq_default _ _ (not_lt.1 hi)]
        exact hbits

/-- Several rows, one by one. -/
theorem decode_storeRows {k : ℕ} (hk : k ≤ N) {q tau hint : ℕ → ℕ} (hq : ∀ i, q i < 2 ^ 32)
    (htau : ∀ i, tau i < 2 ^ 16) (hhint : ∀ i, hint i < 2 ^ 8) :
    decodeCtrl N ((List.range k).foldl
        (fun host i => storeRow host i (q i) (tau i) (hint i)) host) 0
      = { decodeCtrl N host 0 with
          row := fun task =>
            if task < k then ⟨q task, tau task, hint task⟩ else (decodeCtrl N host 0).row task } := by
  induction k with
  | zero => simp
  | succ k ih =>
      rw [List.range_succ, List.foldl_append, List.foldl_cons, List.foldl_nil,
        decode_storeRow (by omega) (hq k) (htau k) (hhint k), ih (by omega)]
      simp only [CtrlFields.apply, CtrlFields.mk.injEq, true_and]
      funext task
      by_cases htask : task = k
      · subst htask
        rw [Function.update_self, if_pos (Nat.lt_succ_self task)]
      · have hlt : task < k + 1 ↔ task < k := by omega
        simp only [Function.update_of_ne htask, hlt]

/-- **A call does to the mirror what it means**, and nothing else. -/
theorem decode_write {c : CtrlCall} (hc : c.InRange N) :
    decodeCtrl N (c.write N host) 0 = (decodeCtrl N host 0).apply N c := by
  cases c with
  | setLambda bw l2 smem comp =>
      obtain ⟨hbw, hl2, hsmem, hcomp⟩ := hc
      have hlen : (ByteMem.toBytes 4 bw ++ ByteMem.toBytes 4 l2
          ++ (ByteMem.toBytes 4 smem ++ ByteMem.toBytes 4 comp)).length = 16 := by
        simp only [List.length_append, ByteMem.length_toBytes]
      refine CtrlFields.ext (load32_store_header ?_) (lambda_store hbw hl2 hsmem hcomp)
        (load32_store_header ?_) (load32_store_header ?_) (row_store_header ?_) <;>
        rw [hlen] <;> decide
  | setNumTasks n =>
      refine CtrlFields.ext (load32_store_word hc) (lambda_store_header ?_) (load32_store_header ?_)
        (load32_store_header ?_) (row_store_header ?_) <;> rw [ByteMem.length_toBytes] <;> decide
  | setOrderSize n =>
      refine CtrlFields.ext (load32_store_header ?_) (lambda_store_header ?_) (load32_store_header ?_)
        (load32_store_word hc) (row_store_header ?_) <;> rw [ByteMem.length_toBytes] <;> decide
  | setTimerEnabled on =>
      have hflags : host.load32 kCtrlFlagsOff < 2 ^ 32 := ByteMem.load_lt host _ 4
      refine CtrlFields.ext (load32_store_header ?_) (lambda_store_header ?_) ?_
        (load32_store_header ?_) (row_store_header ?_)
      · rw [ByteMem.length_toBytes]
        decide
      · rw [ByteMem.length_toBytes]
        decide
      · refine (load32_store_word (timerFlags_lt hflags on)).trans ?_
        simp only [decodeCtrl, CtrlFields.apply, Nat.zero_add, timerFlags_eq]
      · rw [ByteMem.length_toBytes]
        decide
      · rw [ByteMem.length_toBytes]
        decide
  | setRow i q tau hint =>
      obtain ⟨hi, hq, htau, hhint⟩ := hc
      exact decode_storeRow hi hq htau hhint
  | setRows q tau hint n =>
      obtain ⟨hn, hq, htau, hhint⟩ := hc
      exact decode_storeRows hn (hq.lt (by decide)) (htau.lt (by decide)) (hhint.lt (by decide))

/-! ## The plane's calls -/

theorem setRow_eq {p : SchedPlane} {i : ℕ} (hi : i < p.N) (q tau hint : ℕ) :
    p.setRow i q tau hint = some { p with ctrlHost := storeRow p.ctrlHost i q tau hint } := by
  have hoff : ctrlRowsOff + rowSize * i = rowOff i := by
    simp only [ctrlRowsOff, rowSize, rowOff, kCtrlRowSize, kCtrlRowsOff]
    omega
  have hfits : rowOff i + 7 ≤ p.ctrlBytes := by
    simp only [rowOff, kCtrlRowSize, kCtrlRowsOff, SchedPlane.ctrlBytes, ctrlRowsOff, rowSize]
    omega
  simp only [SchedPlane.setRow, hoff, if_pos hfits, storeRow]

theorem execAll_setRows {p : SchedPlane} {q tau hint : ℕ → ℕ} {is : List ℕ} (his : ∀ i ∈ is, i < p.N) :
    p.execAll (is.map fun i => .setRow i (q i) (tau i) (hint i))
      = some ({ p with
          ctrlHost :=
            is.foldl (fun host i => storeRow host i (q i) (tau i) (hint i)) p.ctrlHost }, []) := by
  induction is generalizing p with
  | nil => rfl
  | cons i is ih =>
      obtain ⟨hi, his⟩ := List.forall_mem_cons.1 his
      have hrest := ih (p := { p with ctrlHost := storeRow p.ctrlHost i (q i) (tau i) (hint i) }) his
      rw [List.map_cons]
      refine SchedPlane.execAll_cons_eq_some.2 ⟨_, [], [], ?_, hrest, rfl⟩
      rw [SchedPlane.exec, setRow_eq hi]
      rfl

theorem ColumnOk.rowEntry {n bits : ℕ} {xs : Option (List ℕ)} (h : ColumnOk n bits xs) {i : ℕ}
    (hi : i < n) : SchedPlane.rowEntry xs 0 i = some (column xs i) := by
  cases xs with
  | none => rfl
  | some l =>
      have hlt : i < l.length := hi.trans_le (h l rfl).1
      rw [SchedPlane.rowEntry, column, List.getElem?_eq_getElem hlt, List.getD_eq_getElem _ _ hlt]

theorem mapM_some {α β : Type} {f : α → Option β} {g : α → β} {l : List α}
    (h : ∀ a ∈ l, f a = some (g a)) : l.mapM f = some (l.map g) := by
  induction l with
  | nil => rfl
  | cons a l ih =>
      obtain ⟨ha, hl⟩ := List.forall_mem_cons.1 h
      rw [List.mapM_cons, ha, ih hl]
      rfl

theorem setRows_eq {p : SchedPlane} {q tau hint : Option (List ℕ)} {n : Option ℕ}
    (hc : (CtrlCall.setRows q tau hint n).InRange p.N) :
    p.setRows q tau hint n = some ((List.range (n.getD p.N)).map fun i =>
      .setRow i (column q i) (column tau i) (column hint i)) := by
  obtain ⟨-, hq, htau, hhint⟩ := hc
  refine mapM_some fun i hi => ?_
  have hi : i < n.getD p.N := List.mem_range.1 hi
  have hauto : SchedPlane.rowEntry hint kHintAuto i = some (column hint i) := hhint.rowEntry hi
  rw [hq.rowEntry hi, htau.rowEntry hi, hauto]
  rfl

/-- A call in range succeeds and changes the mirror only. -/
theorem ctrlCall_eq {p : SchedPlane} {c : CtrlCall} (hc : c.InRange p.N) :
    p.ctrlCall c = some { p with ctrlHost := c.write p.N p.ctrlHost } := by
  have hpack : ∀ off v, v < 2 ^ 32 → SchedPlane.packU32 p.ctrlHost off v
      = some (p.ctrlHost.store off (ByteMem.toBytes 4 v)) := fun off v hv => if_pos hv
  cases c with
  | setLambda bw l2 smem comp => rfl
  | setNumTasks n =>
      simp only [SchedPlane.ctrlCall, SchedPlane.setNumTasks, hpack _ n hc]
      rfl
  | setOrderSize n =>
      simp only [SchedPlane.ctrlCall, SchedPlane.setOrderSize, hpack _ n hc]
      rfl
  | setTimerEnabled on =>
      have hflags : p.ctrlHost.load32 ctrlFlagsOff < 2 ^ 32 := ByteMem.load_lt _ _ 4
      have hword := hpack ctrlFlagsOff _ (timerFlags_lt hflags on)
      simp only [timerFlags] at hword
      simp only [SchedPlane.ctrlCall, SchedPlane.setTimerEnabled, hword]
      rfl
  | setRow i q tau hint => exact setRow_eq hc.1 q tau hint
  | setRows q tau hint n =>
      have hrows : ∀ i ∈ List.range (n.getD p.N), i < p.N := fun i hi =>
        (List.mem_range.1 hi).trans_le hc.1
      simp only [SchedPlane.ctrlCall, setRows_eq hc, Option.bind_eq_bind, Option.bind_some,
        execAll_setRows hrows]
      rfl

/-- The calls in order, as a whole. -/
theorem ctrlCalls_eq {p : SchedPlane} {calls : List CtrlCall} (hcalls : ∀ c ∈ calls, c.InRange p.N) :
    calls.foldlM SchedPlane.ctrlCall p
      = some { p with ctrlHost := calls.foldl (CtrlCall.write p.N) p.ctrlHost } := by
  induction calls generalizing p with
  | nil => rfl
  | cons c calls ih =>
      obtain ⟨hc, hcalls⟩ := List.forall_mem_cons.1 hcalls
      rw [List.foldlM_cons, ctrlCall_eq hc, Option.bind_eq_bind, Option.bind_some]
      exact ih (p := { p with ctrlHost := c.write p.N p.ctrlHost }) hcalls

theorem decode_writes {calls : List CtrlCall} (hcalls : ∀ c ∈ calls, c.InRange N) :
    decodeCtrl N (calls.foldl (CtrlCall.write N) host) 0
      = calls.foldl (CtrlFields.apply N) (decodeCtrl N host 0) := by
  induction calls generalizing host with
  | nil => rfl
  | cons c calls ih =>
      obtain ⟨hc, hcalls⟩ := List.forall_mem_cons.1 hcalls
      rw [List.foldl_cons, ih hcalls, decode_write hc, List.foldl_cons]

/-- A push publishes the fields of the mirror. -/
theorem decode_push {p p' : SchedPlane} {w : List MemOp} (hpush : p.push = some (p', w))
    (m : ByteMem) : decodeCtrl p.N (applyOps m w) (p.base + ctrlOff) = decodeCtrl p.N p.ctrlHost 0 := by
  have hbytes : p.ctrlBytes = 32 + 8 * p.N := rfl
  have hload : ∀ off width, 4 ≤ off → off + width ≤ p.ctrlBytes →
      (applyOps m w).load (p.base + ctrlOff + off) width = p.ctrlHost.load (0 + off) width := by
    intro off width hlo hhi
    rw [Nat.zero_add]
    exact SchedPlane.load_push hpush m hlo hhi
  refine CtrlFields.ext ?_ ?_ ?_ ?_ (funext fun task => ?_)
  · exact hload _ 4 (by decide) (by rw [hbytes, kCtrlNumTasksOff]; omega)
  · refine List.map_congr_left fun k hk => hload _ 4 ?_ ?_
    · exact (show 4 ≤ kCtrlLambdaOff by decide).trans (Nat.le_add_right _ _)
    · have hk : k < 4 := List.mem_range.1 hk
      rw [hbytes, kCtrlLambdaOff]
      omega
  · exact hload _ 4 (by decide) (by rw [hbytes, kCtrlFlagsOff]; omega)
  · exact hload _ 4 (by decide) (by rw [hbytes, kCtrlOrderSizeOff]; omega)
  · by_cases htask : task < p.N
    · simp only [decodeCtrl, if_pos htask, loadTau, CtrlRow.mk.injEq, ByteMem.load32]
      simp only [rowOff, kCtrlRowsOff, kCtrlRowSize, kCtrlRowTauOff, kCtrlRowHintOff]
      exact ⟨hload _ 4 (by omega) (by omega), hload _ 2 (by omega) (by omega),
        hload _ 1 (by omega) (by omega)⟩
    · simp only [decodeCtrl, if_neg htask]

end

/-! ## The host runtime's mirror -/

/-- The mirrors agree behind the generation, and the rows' padding is zero. -/
structure SameBlock (host rtHost : ByteMem) : Prop where
  bytes : ∀ i, 4 ≤ i → rtHost i = host i
  padding : ∀ task, host (rowOff task + 7) = 0

section

variable {N : ℕ} {host rtHost : ByteMem}

/-- Both write the same to the header. -/
theorem SameBlock.store (h : SameBlock host rtHost) {a : ℕ} {bs : List UInt8}
    (ha : a + bs.length ≤ kCtrlRowsOff) : SameBlock (host.store a bs) (rtHost.store a bs) := by
  refine ⟨fun i hi => ByteMem.store_congr fun _ => h.bytes i hi, fun task => ?_⟩
  rw [ByteMem.store_apply_of_not_mem _ _ _ (Or.inr ?_)]
  · exact h.padding task
  · simp only [rowOff]
    omega

/-- The host runtime writes the padding of a row, too. -/
theorem SameBlock.row (h : SameBlock host rtHost) (i q tau hint : ℕ) :
    SameBlock (storeRow host i q tau hint)
      (rtHost.store (rowOff i) (ByteMem.toBytes 4 q ++ ByteMem.toBytes 2 tau
        ++ (ByteMem.toBytes 1 hint ++ ByteMem.toBytes 1 0))) := by
  have hlen : (ByteMem.toBytes 4 q ++ ByteMem.toBytes 2 tau ++ ByteMem.toBytes 1 hint).length = 7 := by
    simp only [List.length_append, ByteMem.length_toBytes]
  constructor
  · intro j hj
    rw [← List.append_assoc, ByteMem.store_append, hlen]
    refine ByteMem.store_congr fun _ => ?_
    by_cases hpad : j = rowOff i + 7
    · subst hpad
      rw [h.padding i]
      exact Function.update_self ..
    · have hlen' : (ByteMem.toBytes 1 0).length = 1 := ByteMem.length_toBytes 1 0
      rw [ByteMem.store_apply_of_not_mem _ _ _ (by omega), h.bytes j hj]
  · intro task
    rw [storeRow, ByteMem.store_apply_of_not_mem _ _ _ ?_, h.padding task]
    rw [hlen]
    simp only [rowOff, kCtrlRowSize]
    omega

theorem SameBlock.setTask (h : SameBlock host rtHost) {s : SchedRt} (hs : s.hCtrl = rtHost) {i : ℕ}
    (hi : i < N) (q tau hint : ℕ) :
    SameBlock (storeRow host i q tau hint) (s.setTask N i q tau hint).hCtrl := by
  rw [SchedRt.setTask, if_neg (not_le.2 hi)]
  subst hs
  exact h.row i q tau hint

theorem SameBlock.setRows (s : SchedRt) (h : SameBlock host s.hCtrl) {q tau hint : ℕ → ℕ}
    {is : List ℕ} (his : ∀ i ∈ is, i < N) :
    SameBlock (is.foldl (fun host i => storeRow host i (q i) (tau i) (hint i)) host)
      (is.foldl (fun s i => s.setTask N i (q i) (tau i) (hint i)) s).hCtrl := by
  induction is generalizing host s with
  | nil => exact h
  | cons i is ih =>
      obtain ⟨hi, his⟩ := List.forall_mem_cons.1 his
      exact ih _ (h.setTask rfl hi (q i) (tau i) (hint i)) his

/-- **A call does the same to both mirrors.** -/
theorem SameBlock.ctrlCall {s : SchedRt} (h : SameBlock host s.hCtrl) {c : CtrlCall}
    (hc : c.InRange N) : SameBlock (c.write N host) (s.ctrlCall N c).hCtrl := by
  cases c with
  | setLambda bw l2 smem comp =>
      have hprices : (s.setLambda bw l2 smem comp).hCtrl
          = s.hCtrl.store kCtrlLambdaOff (ByteMem.toBytes 4 bw ++ ByteMem.toBytes 4 l2
            ++ (ByteMem.toBytes 4 smem ++ ByteMem.toBytes 4 comp)) := by
        rw [← List.append_assoc, ← ByteMem.store_store_append, ← ByteMem.store_store_append,
          ← ByteMem.store_store_append]
        simp only [List.length_append, ByteMem.length_toBytes]
        rfl
      show SameBlock _ (s.setLambda bw l2 smem comp).hCtrl
      rw [hprices]
      refine h.store ?_
      simp only [List.length_append, ByteMem.length_toBytes]
      decide
  | setNumTasks n => exact h.store (by rw [ByteMem.length_toBytes]; decide)
  | setOrderSize n => exact h.store (by rw [ByteMem.length_toBytes]; decide)
  | setTimerEnabled on =>
      have hload : s.hCtrl.load32 kCtrlFlagsOff = host.load32 kCtrlFlagsOff :=
        ByteMem.load_congr fun i hlo _ => h.bytes i ((show 4 ≤ kCtrlFlagsOff by decide).trans hlo)
      have hflags : ∀ flags, (if on then Nat.ldiff flags kCtrlFlagTimerOff
          else flags ||| kCtrlFlagTimerOff) = timerFlags flags on := by
        intro flags
        cases on with
        | true => exact (Nat.or_zero _).symm
        | false =>
            refine Nat.eq_of_testBit_eq fun i => ?_
            simp only [timerFlags, Bool.false_eq_true, if_false, Nat.testBit_or, Nat.testBit_ldiff,
              kCtrlFlagTimerOff, flagTimerOff]
            cases flags.testBit i <;> cases Nat.testBit 1 i <;> rfl
      show SameBlock _ (s.hCtrl.store _ (ByteMem.toBytes 4 _))
      rw [hflags, hload]
      exact h.store (by rw [ByteMem.length_toBytes]; decide)
  | setRow i q tau hint => exact h.setTask rfl hc.1 q tau hint
  | setRows q tau hint n =>
      exact SameBlock.setRows s h fun i hi => (List.mem_range.1 hi).trans_le hc.1

theorem SameBlock.ctrlCalls {s : SchedRt} (h : SameBlock host s.hCtrl) {calls : List CtrlCall}
    (hcalls : ∀ c ∈ calls, c.InRange N) :
    SameBlock (calls.foldl (CtrlCall.write N) host) (calls.foldl (SchedRt.ctrlCall N) s).hCtrl := by
  induction calls generalizing host s with
  | nil => exact h
  | cons c calls ih =>
      obtain ⟨hc, hcalls⟩ := List.forall_mem_cons.1 hcalls
      exact ih (h.ctrlCall hc) hcalls

end

/-! ## The codec -/

/-- A block of zeros, but for the generation. -/
theorem decode_zero {N : ℕ} {host : ByteMem} (h : ∀ i, 4 ≤ i → host i = 0) :
    decodeCtrl N host 0 = {} := by
  have hload : ∀ off width, 4 ≤ off → host.load (0 + off) width = 0 := fun off width hoff =>
    ByteMem.load_eq_zero fun i hlo _ => h i (by omega)
  refine CtrlFields.ext (hload _ 4 (by decide)) ?_ (hload _ 4 (by decide)) (hload _ 4 (by decide))
    (funext fun task => ?_)
  · have hword : ∀ k ∈ List.range 4, host.load32 (0 + (kCtrlLambdaOff + 4 * k)) = 0 := fun k _ =>
      hload _ 4 ((show 4 ≤ kCtrlLambdaOff by decide).trans (Nat.le_add_right _ _))
    exact List.map_congr_left hword
  · by_cases htask : task < N
    · simp only [decodeCtrl, if_pos htask, loadTau, CtrlRow.mk.injEq]
      simp only [rowOff, kCtrlRowsOff]
      exact ⟨hload _ 4 (by omega), hload _ 2 (by omega), hload _ 1 (by omega)⟩
    · simp only [decodeCtrl, if_neg htask]

/-- The mirror of a new plane. -/
theorem ctrlHost_create {N base : ℕ} {p : SchedPlane} {w : List MemOp}
    (hcreate : SchedPlane.create N base = some (p, w)) :
    p.N = N ∧ p.base = base ∧ p.generation = 1 ∧ ∀ i, 4 ≤ i → p.ctrlHost i = 0 := by
  obtain ⟨-, w', hpush, -⟩ := SchedPlane.push_of_create hcreate
  unfold SchedPlane.push at hpush
  obtain ⟨host, hpack, heq⟩ := Option.map_eq_some_iff.1 hpush
  cases heq
  obtain ⟨-, rfl⟩ := SchedPlane.packU32_eq_some hpack
  refine ⟨rfl, rfl, rfl, fun i hi => ?_⟩
  exact ByteMem.store_apply_of_not_mem _ _ _ (Or.inr (by rwa [ByteMem.length_toBytes]))

/-- **The three layouts agree.** Behind any setters in range on a new plane, and a push, the passes load
    from the arena what was set last, and 0 where nothing was; and the host runtime's mirror, behind
    the same calls and push, has the same bytes, but for the generation. -/
theorem ctrl_codec {N base : ℕ} {p : SchedPlane} {w : List MemOp}
    (hcreate : SchedPlane.create N base = some (p, w)) {calls : List CtrlCall}
    (hcalls : ∀ c ∈ calls, c.InRange N) (m : ByteMem) :
    ∃ p₁ p₂ w', calls.foldlM SchedPlane.ctrlCall p = some p₁ ∧ p₁.push = some (p₂, w') ∧
      decodeCtrl N (applyOps (applyOps m w) w') (base + ctrlOff)
        = calls.foldl (CtrlFields.apply N) {} ∧
      ∀ (rt : SchedRt) (m' : ByteMem), rt.hCtrl = ByteMem.zeroed → ∀ i, 4 ≤ i →
        ((calls.foldl (SchedRt.ctrlCall N) rt).pushCtrl N m').1.hCtrl i = p₂.ctrlHost i := by
  obtain ⟨rfl, rfl, hgen, hzero⟩ := ctrlHost_create hcreate
  have hrun := ctrlCalls_eq hcalls
  have hpack : SchedPlane.packU32 (calls.foldl (CtrlCall.write p.N) p.ctrlHost) 0 (p.generation + 1)
      = some ((calls.foldl (CtrlCall.write p.N) p.ctrlHost).store 0
        (ByteMem.toBytes 4 (p.generation + 1))) := by
    rw [SchedPlane.packU32, hgen, if_pos (by norm_num)]
  obtain ⟨p₂, w', hpush, hhost⟩ : ∃ p₂ w',
      ({ p with ctrlHost := calls.foldl (CtrlCall.write p.N) p.ctrlHost } : SchedPlane).push
        = some (p₂, w') ∧ p₂.ctrlHost = (calls.foldl (CtrlCall.write p.N) p.ctrlHost).store 0
          (ByteMem.toBytes 4 (p.generation + 1)) := by
    simp only [SchedPlane.push, hpack]
    exact ⟨_, _, rfl, rfl⟩
  refine ⟨_, p₂, w', hrun, hpush, ?_, fun rt m' hrt i hi => ?_⟩
  · rw [← decode_zero (N := p.N) hzero, ← decode_writes hcalls]
    exact decode_push hpush (applyOps m w)
  · have hstart : SameBlock p.ctrlHost rt.hCtrl := by
      refine ⟨fun i hi => ?_, fun task => hzero _ ?_⟩
      · rw [hrt, hzero i hi]
        rfl
      · simp only [rowOff, kCtrlRowsOff]
        omega
    have hsame := (hstart.ctrlCalls hcalls).bytes i hi
    rw [hhost, ByteMem.store_apply_of_not_mem _ _ _ (Or.inr (by rwa [ByteMem.length_toBytes])), ← hsame]
    exact ByteMem.store_apply_of_not_mem _ _ _ (Or.inr (by rwa [ByteMem.length_toBytes]))

/-- Two rows, then one of them again, with the timer off. -/
theorem ctrl_codec_rows :
    ∃ p w p₁ p₂ w', SchedPlane.create 4 4096 = some (p, w) ∧
      [CtrlCall.setRows none (some [7, 9]) none (some 2), .setRow 1 0 3 kHintPolite,
        .setTimerEnabled false].foldlM SchedPlane.ctrlCall p = some p₁ ∧
      p₁.push = some (p₂, w') ∧
      let fields := decodeCtrl 4 (applyOps (applyOps ByteMem.zeroed w) w') (4096 + ctrlOff)
      fields.row 0 = ⟨0, 7, 0⟩ ∧ fields.row 1 = ⟨0, 3, 2⟩ ∧ fields.row 2 = ⟨0, 0, 0⟩ ∧
        fields.flags = 1 := by
  obtain ⟨p, w, hcreate⟩ := SchedPlane.exists_create (show 4 ≤ maxTasksLimit by decide) 4096
  have hcalls : ∀ c ∈ [CtrlCall.setRows none (some [7, 9]) none (some 2),
      .setRow 1 0 3 kHintPolite, .setTimerEnabled false], c.InRange 4 := by
    simp [CtrlCall.InRange, ColumnOk, kHintPolite]
  obtain ⟨p₁, p₂, w', hrun, hpush, hfields, -⟩ := ctrl_codec hcreate hcalls ByteMem.zeroed
  refine ⟨p, w, p₁, p₂, w', hcreate, hrun, hpush, ?_⟩
  rw [hfields]
  decide

end SchedPass
