import Mathlib.Data.List.Induction
import SchedPass.Lib.Spans
import SchedPass.Plane.View

set_option autoImplicit false

/-! # The windows of the tables

The arena has a window of 256 KiB for each of the four tables, and a device channel moves a table into a
buffer of its own. Every method of `SchedPlane` writes to one table only (`performs_covered`), the
tables of a well-laid-out plane are apart (`Laid.spans_apart`), so no method changes another table
(`performs_elsewhere`). -/

namespace SchedPass

/-! ## Tables -/

/-- The tables of the plane. -/
inductive Table
  | order | ctrl | timer | queue
  deriving DecidableEq, Repr

def Table.off : Table → ℕ
  | order => orderOff
  | ctrl => ctrlOff
  | timer => timerOff
  | queue => queueOff

def windowBytes : ℕ := 0x40000

theorem Table.off_apart {t t' : Table} (hne : t ≠ t') :
    t.off + windowBytes ≤ t'.off ∨ t'.off + windowBytes ≤ t.off := by
  cases t <;> cases t' <;> first | exact absurd rfl hne | decide +kernel

theorem Table.off_le (t : Table) : t.off + windowBytes ≤ arenaBytes := by
  cases t <;> decide +kernel

/-- The table's window. -/
def SchedPlane.window (p : SchedPlane) (t : Table) : Span := ⟨p.base + t.off, windowBytes⟩

/-- The table's buffer of `N` entries on the device channel. -/
def SchedPlane.buffer (p : SchedPlane) : Table → Option Span
  | .order => p.orderDev.map fun d => ⟨d, 4 * p.N⟩
  | .timer => p.timerDev.map fun e => ⟨e, 8 * p.N⟩
  | .ctrl | .queue => none

/-- Where the table is: its window, and its buffer if it has one. -/
def SchedPlane.spans (p : SchedPlane) (t : Table) : List Span := p.window t :: (p.buffer t).toList

/-! ## Calls -/

/-- A call of a `SchedPlane` method. A channel switch brings the address of the buffer that it allocates;
    `set_lambda` is given bit patterns. `reset_order`, `install_order` and `set_rows` are sequences of
    these, and the other methods change neither the mirror nor the memory. -/
inductive PlaneCall
  | method (op : PlaneOp)
  | setLambda (bw l2 smem comp : ℕ)
  | resetQueue (workers : ℤ)
  | useDeviceTimer (dev : ℕ)
  | useDeviceOrder (dev : ℕ)
  deriving DecidableEq, Repr

/-- The table that a call is about; the setters are about the control block. -/
def PlaneCall.table : PlaneCall → Table
  | method (.setOrder _) | useDeviceOrder _ => .order
  | method .clearTimer | useDeviceTimer _ => .timer
  | resetQueue _ => .queue
  | method _ | setLambda .. => .ctrl

namespace SchedPlane

def ctrlLambdaOff : ℕ := 8

def setLambda (p : SchedPlane) (bw l2 smem comp : ℕ) : SchedPlane :=
  let prices := ByteMem.toBytes 4 bw ++ ByteMem.toBytes 4 l2
    ++ (ByteMem.toBytes 4 smem ++ ByteMem.toBytes 4 comp)
  { p with ctrlHost := p.ctrlHost.store ctrlLambdaOff prices }

/-- `struct.pack("<i", workers)`. -/
def resetQueue (p : SchedPlane) (workers : ℤ) : Option (List MemOp) :=
  if -2 ^ 31 ≤ workers ∧ workers < 2 ^ 31 then
    some [⟨false, p.base + queueOff, ByteMem.toBytes 4 (workers % 2 ^ 32).toNat⟩]
  else
    none

/-- The channel word at `off` becomes the address of the buffer. -/
def channelWord (p : SchedPlane) (off dev : ℕ) : MemOp := ⟨false, p.base + off, ByteMem.toBytes 8 dev⟩

/-- One call: the plane afterwards and the writes issued. A channel that is switched again keeps its
    buffer. -/
def perform (p : SchedPlane) : PlaneCall → Option (SchedPlane × List MemOp)
  | .method op => p.exec op
  | .setLambda bw l2 smem comp => some (p.setLambda bw l2 smem comp, [])
  | .resetQueue workers => (p.resetQueue workers).map (p, ·)
  | .useDeviceTimer dev =>
      match p.timerDev with
      | none => some (p.useDeviceTimer dev)
      | some e => some (p, [p.channelWord timerOff e])
  | .useDeviceOrder dev =>
      match p.orderDev with
      | none => some (p.useDeviceOrder dev)
      | some d => some (p, [p.channelWord orderOff d])

/-- A buffer that the call allocates lies outside the arena and apart from the other one, and its address
    is a 64-bit one. -/
def Allocates (p : SchedPlane) : PlaneCall → Prop
  | .useDeviceTimer dev =>
      p.timerDev = none → OutsideArena p.base dev (8 * p.N) ∧ dev < 2 ^ 64 ∧
        ∀ d ∈ p.orderDev, d + 4 * p.N ≤ dev ∨ dev + 8 * p.N ≤ d
  | .useDeviceOrder dev =>
      p.orderDev = none → OutsideArena p.base dev (4 * p.N) ∧ dev < 2 ^ 64 ∧
        ∀ e ∈ p.timerDev, dev + 4 * p.N ≤ e ∨ e + 8 * p.N ≤ dev
  | _ => True

variable {p p' : SchedPlane} {m : ByteMem} {w : List MemOp} {t t' : Table} {c : PlaneCall}

/-! ## The tables are apart -/

theorem Laid.outside_buffer (h : p.Laid) {s : Span} (hs : s ∈ p.buffer t) :
    OutsideArena p.base s.start s.size := by
  cases t with
  | order =>
      obtain ⟨d, hd, rfl⟩ := Option.mem_map.1 hs
      exact h.order d hd
  | timer =>
      obtain ⟨e, he, rfl⟩ := Option.mem_map.1 hs
      exact h.timer e he
  | ctrl => cases hs
  | queue => cases hs

theorem Laid.window_apart (h : p.Laid) (t : Table) {s : Span} (hs : s ∈ p.buffer t') :
    (p.window t).Apart s := by
  have hout := h.outside_buffer hs
  have hoff := t.off_le
  unfold OutsideArena at hout
  simp only [window, Span.Apart]
  omega

theorem Laid.spans_apart (h : p.Laid) (hne : t ≠ t') :
    ∀ s ∈ p.spans t, ∀ s' ∈ p.spans t', s.Apart s' := by
  -- the windows, a window and a buffer, two buffers
  have hwindow : (p.window t).Apart (p.window t') := by
    have hoff := Table.off_apart hne
    simp only [window, Span.Apart]
    omega
  have hbuffers : ∀ s ∈ p.buffer t, ∀ s' ∈ p.buffer t', s.Apart s' := by
    intro s hs s' hs'
    cases t <;> cases t' <;> simp only [buffer, Option.mem_map, Option.not_mem_none, ne_eq,
      not_true_eq_false] at hs hs' hne
    · obtain ⟨⟨d, hd, rfl⟩, e, he, rfl⟩ := And.intro hs hs'
      exact h.apart d hd e he
    · obtain ⟨⟨e, he, rfl⟩, d, hd, rfl⟩ := And.intro hs hs'
      exact (h.apart d hd e he).symm
  intro s hs s' hs'
  simp only [spans, List.mem_cons, Option.mem_toList] at hs hs'
  rcases hs with rfl | hs <;> rcases hs' with rfl | hs'
  · exact hwindow
  · exact h.window_apart t hs'
  · exact (h.window_apart t' hs).symm
  · exact hbuffers s hs s' hs'

theorem covered_first {n : ℕ} (h : n ≤ windowBytes) : CoveredBy (p.spans t) (p.base + t.off) n :=
  ⟨p.window t, List.mem_cons_self, le_rfl, Nat.add_le_add_left h _⟩

theorem covered_offset {k n : ℕ} (h : k + n ≤ windowBytes) :
    CoveredBy (p.spans t) (p.base + t.off + k) n := by
  refine ⟨p.window t, List.mem_cons_self, Nat.le_add_right _ k, ?_⟩
  rw [Nat.add_assoc _ k n]
  exact Nat.add_le_add_left h _

theorem covered_buffer {s : Span} (hs : s ∈ p.buffer t) {a n : ℕ} (h : s.Covers a n) :
    CoveredBy (p.spans t) a n :=
  ⟨s, List.mem_cons_of_mem _ (Option.mem_toList.2 hs), h⟩

/-! ## What a call writes -/

/-- A call keeps the layout, and the buffers of the tables that it is not about. -/
theorem perform_layout (hrun : p.perform c = some (p', w)) :
    p'.N = p.N ∧ p'.base = p.base ∧ (.timer ≠ c.table → p'.timerDev = p.timerDev) ∧
      (.order ≠ c.table → p'.orderDev = p.orderDev) := by
  cases c with
  | method op =>
      have hlayout := sameLayout_exec hrun
      exact ⟨hlayout.N, hlayout.base, fun _ => hlayout.timerDev, fun _ => hlayout.orderDev⟩
  | setLambda bw l2 smem comp =>
      cases hrun
      exact ⟨rfl, rfl, fun _ => rfl, fun _ => rfl⟩
  | resetQueue workers =>
      obtain ⟨w', -, heq⟩ := Option.map_eq_some_iff.1 hrun
      cases heq
      exact ⟨rfl, rfl, fun _ => rfl, fun _ => rfl⟩
  | useDeviceTimer dev =>
      simp only [perform] at hrun
      split at hrun <;> cases hrun <;> exact ⟨rfl, rfl, fun h => absurd rfl h, fun _ => rfl⟩
  | useDeviceOrder dev =>
      simp only [perform] at hrun
      split at hrun <;> cases hrun <;> exact ⟨rfl, rfl, fun _ => rfl, fun h => absurd rfl h⟩

/-- Only a push counts, and a setter writes nothing. -/
theorem perform_unpublished (hrun : p.perform c = some (p', w)) (hc : c ≠ .method .push) :
    p'.generation = p.generation ∧ (c.table = .ctrl → w = []) := by
  cases c with
  | method op =>
      cases op with
      | setOrder tasks =>
          cases hrun
          exact ⟨rfl, fun h => by cases h⟩
      | clearTimer =>
          cases hrun
          exact ⟨rfl, fun h => by cases h⟩
      | push => exact absurd rfl hc
      | setRow i q tau hint =>
          simp only [perform, exec, setRow] at hrun
          split at hrun <;> cases hrun
          exact ⟨rfl, fun _ => rfl⟩
      | _ =>
          obtain ⟨host, -, rfl, rfl⟩ := exists_packed hrun
          exact ⟨rfl, fun _ => rfl⟩
  | setLambda bw l2 smem comp =>
      cases hrun
      exact ⟨rfl, fun _ => rfl⟩
  | resetQueue workers =>
      obtain ⟨w', -, heq⟩ := Option.map_eq_some_iff.1 hrun
      cases heq
      exact ⟨rfl, fun h => by cases h⟩
  | useDeviceTimer dev =>
      simp only [perform] at hrun
      split at hrun <;> cases hrun <;> exact ⟨rfl, fun h => by cases h⟩
  | useDeviceOrder dev =>
      simp only [perform] at hrun
      split at hrun <;> cases hrun <;> exact ⟨rfl, fun h => by cases h⟩

theorem Laid.perform (h : p.Laid) (halloc : p.Allocates c) (hrun : p.perform c = some (p', w)) :
    p'.Laid := by
  cases c with
  | method op => exact h.congr (sameLayout_exec hrun)
  | setLambda bw l2 smem comp =>
      cases hrun
      exact ⟨h.cap, h.order, h.timer, h.apart⟩
  | resetQueue workers =>
      obtain ⟨w', -, heq⟩ := Option.map_eq_some_iff.1 hrun
      cases heq
      exact h
  | useDeviceTimer dev =>
      simp only [SchedPlane.perform] at hrun
      split at hrun
      · next hnone =>
          obtain ⟨hout, -, hapart⟩ := halloc hnone
          cases hrun
          refine ⟨h.cap, h.order, ?_, fun d hd e he => ?_⟩
          · rintro e ⟨⟩
            exact hout
          · cases he
            exact hapart d hd
      · cases hrun
        exact h
  | useDeviceOrder dev =>
      simp only [SchedPlane.perform] at hrun
      split at hrun
      · next hnone =>
          obtain ⟨hout, -, hapart⟩ := halloc hnone
          cases hrun
          refine ⟨h.cap, ?_, h.timer, fun d hd e he => ?_⟩
          · rintro d ⟨⟩
            exact hout
          · cases hd
            exact hapart e he
      · cases hrun
        exact h

/-- The channel word is in the window. -/
theorem covered_channelWord (t : Table) (dev : ℕ) :
    CoveredBy (p.spans t) (p.channelWord t.off dev).addr (p.channelWord t.off dev).bytes.length := by
  refine covered_first ?_
  simp only [channelWord, ByteMem.length_toBytes, windowBytes]
  omega

theorem covered_setOrder (h : p.Laid) (tasks : List ℕ) :
    ∀ o ∈ p.setOrder tasks, CoveredBy (p.spans .order) o.addr o.bytes.length := by
  have hcap := h.cap
  have hlen : (tasks.take (min tasks.length p.N)).length ≤ p.N := by
    rw [List.length_take]
    omega
  simp only [maxTasksLimit] at hcap
  cases hd : p.orderDev with
  | none =>
      simp only [setOrder, hd, List.forall_mem_singleton]
      refine covered_first ?_
      simp only [ByteMem.length_wordsToBytes, windowBytes]
      omega
  | some d =>
      simp only [setOrder, hd, List.forall_mem_singleton]
      refine covered_buffer (s := ⟨d, 4 * p.N⟩) (by simp [buffer, hd]) ⟨le_rfl, ?_⟩
      simp only [ByteMem.length_wordsToBytes]
      omega

theorem covered_clearTimer (h : p.Laid) :
    ∀ o ∈ p.clearTimer, CoveredBy (p.spans .timer) o.addr o.bytes.length := by
  have hcap := h.cap
  simp only [maxTasksLimit] at hcap
  cases he : p.timerDev with
  | none =>
      simp only [clearTimer, he, List.forall_mem_singleton]
      refine covered_first ?_
      simp only [List.length_replicate, windowBytes]
      omega
  | some e =>
      simp only [clearTimer, he, List.forall_mem_singleton]
      refine covered_buffer (s := ⟨e, 8 * p.N⟩) (by simp [buffer, he]) ⟨le_rfl, ?_⟩
      simp only [List.length_replicate]
      omega

theorem covered_push (h : p.Laid) (hpush : p.push = some (p', w)) :
    ∀ o ∈ w, CoveredBy (p'.spans .ctrl) o.addr o.bytes.length := by
  have hcap := h.cap
  simp only [maxTasksLimit] at hcap
  obtain ⟨host, -, heq⟩ := Option.map_eq_some_iff.1 hpush
  cases heq
  have hbytes : p.ctrlBytes = 32 + 8 * p.N := rfl
  simp only [List.forall_mem_cons, List.not_mem_nil, false_imp_iff, implies_true, and_true]
  constructor
  · refine covered_offset ?_
    simp only [ByteMem.length_slice, windowBytes, hbytes]
    omega
  · refine covered_first ?_
    simp only [ByteMem.length_slice, windowBytes]
    omega

/-- **A call writes to its own table only.** -/
theorem performs_covered (h : p'.Laid) (hrun : p.perform c = some (p', w)) :
    ∀ o ∈ w, CoveredBy (p'.spans c.table) o.addr o.bytes.length := by
  cases c with
  | method op =>
      have hlaid : p.Laid := h.congr (sameLayout_exec hrun).symm
      cases op with
      | setOrder tasks =>
          cases hrun
          exact covered_setOrder h tasks
      | clearTimer =>
          cases hrun
          exact covered_clearTimer h
      | push => exact covered_push hlaid hrun
      | _ =>
          obtain ⟨p₁, -, heq⟩ := Option.map_eq_some_iff.1 hrun
          cases heq
          exact fun o ho => absurd ho List.not_mem_nil
  | setLambda bw l2 smem comp =>
      cases hrun
      exact fun o ho => absurd ho List.not_mem_nil
  | resetQueue workers =>
      obtain ⟨w', hw, heq⟩ := Option.map_eq_some_iff.1 hrun
      cases heq
      unfold resetQueue at hw
      split at hw <;> cases hw
      refine List.forall_mem_singleton.2 (covered_first ?_)
      simp only [ByteMem.length_toBytes, windowBytes]
      omega
  | useDeviceTimer dev =>
      simp only [perform] at hrun
      split at hrun
      · cases hrun
        refine List.forall_mem_cons.2 ⟨?_, List.forall_mem_singleton.2 (covered_channelWord .timer dev)⟩
        refine covered_buffer (s := ⟨dev, 8 * p.N⟩) rfl ⟨le_rfl, ?_⟩
        rw [List.length_replicate]
      · cases hrun
        exact List.forall_mem_singleton.2 (covered_channelWord .timer _)
  | useDeviceOrder dev =>
      simp only [perform] at hrun
      split at hrun
      · cases hrun
        refine List.forall_mem_cons.2 ⟨?_, List.forall_mem_singleton.2 (covered_channelWord .order dev)⟩
        refine covered_buffer (s := ⟨dev, 4 * p.N⟩) rfl ⟨le_rfl, ?_⟩
        rw [ByteMem.length_wordsToBytes, List.length_range]
      · cases hrun
        exact List.forall_mem_singleton.2 (covered_channelWord .order _)

theorem agreesOff_applyOps {spans : List Span}
    (h : ∀ o ∈ w, CoveredBy spans o.addr o.bytes.length) : AgreesOff spans m (applyOps m w) := by
  induction w generalizing m with
  | nil => exact .refl _ m
  | cons o w ih =>
      have hfirst : AgreesOff spans m (o.apply m) := .store (h o List.mem_cons_self)
      exact hfirst.trans (ih fun o' ho' => h o' (List.mem_cons_of_mem o ho'))

/-- **No call changes another table.** -/
theorem performs_elsewhere (h : p'.Laid) (hrun : p.perform c = some (p', w)) (hne : t ≠ c.table)
    {s : Span} (hs : s ∈ p'.spans t) {a : ℕ} (ha : s.Covers a 1) : applyOps m w a = m a :=
  (agreesOff_applyOps (performs_covered h hrun)).apply
    (fun s' hs' => h.spans_apart hne.symm s' hs' s hs) ha

/-! ## The channel words -/

/-- No call changes a word of another table's window. -/
theorem load_window_elsewhere (h : p'.Laid) (hrun : p.perform c = some (p', w)) (hne : t ≠ c.table) :
    (applyOps m w).load64 (p.base + t.off) = m.load64 (p.base + t.off) := by
  obtain ⟨-, hbase, -⟩ := perform_layout hrun
  refine (agreesOff_applyOps (performs_covered h hrun)).load (t := p'.window t)
    (fun s hs => h.spans_apart hne.symm s hs _ List.mem_cons_self) ?_
  rw [window, hbase, windowBytes]
  exact ⟨le_rfl, Nat.add_le_add_left (show 8 ≤ 0x40000 by decide) _⟩

/-- The channel word that a switch writes. -/
theorem load_channelWord {off dev : ℕ} (hdev : dev < 2 ^ 64) :
    ((p.channelWord off dev).apply m).load64 (p.base + off) = dev :=
  ByteMem.load_store_toBytes_of_lt m (p.base + off) 8 hdev

/-- The order channel's word stays the address of its buffer, -/
theorem channelOk_perform (h : p.Laid) (halloc : p.Allocates c) (hchan : p.ChannelOk m)
    (hrun : p.perform c = some (p', w)) : p'.ChannelOk (applyOps m w) := by
  have hlaid := h.perform halloc hrun
  obtain ⟨-, hbase, -, hkeep⟩ := perform_layout hrun
  by_cases htable : .order = c.table
  · cases c with
    | method op => exact channelOk_exec h hchan hrun
    | useDeviceOrder dev =>
        simp only [perform] at hrun
        split at hrun
        · next hnone =>
            obtain ⟨-, hdev, -⟩ := halloc hnone
            cases hrun
            rintro d ⟨⟩
            exact load_channelWord hdev
        · next d hd =>
            have hword := hchan d hd
            cases hrun
            intro d' hd'
            cases hd.symm.trans hd'
            exact load_channelWord (hword ▸ ByteMem.load_lt m _ 8)
    | _ => cases htable
  · intro d hd
    rw [hkeep htable] at hd
    have hload := load_window_elsewhere (m := m) hlaid hrun htable
    rw [hbase]
    exact hload.trans (hchan d hd)

/-- and so does the timer channel's, null without one. -/
theorem timerWord_perform (h : p.Laid) (halloc : p.Allocates c)
    (hword : m.load64 (p.base + timerOff) = p.timerDev.getD 0) (hrun : p.perform c = some (p', w)) :
    (applyOps m w).load64 (p'.base + timerOff) = p'.timerDev.getD 0 := by
  have hlaid := h.perform halloc hrun
  obtain ⟨-, hbase, hkeep, -⟩ := perform_layout hrun
  have hlt : p.timerDev.getD 0 < 2 ^ 64 := hword ▸ ByteMem.load_lt m _ 8
  by_cases htable : .timer = c.table
  · cases c with
    | method op =>
        cases op with
        | clearTimer =>
            cases hrun
            cases he : p.timerDev with
            | none =>
                rw [he] at hword
                simp only [clearTimer, he]
                exact ByteMem.load_store_zeros hword _ _
            | some e =>
                rw [he] at hword
                simp only [clearTimer, he]
                refine (ByteMem.load_store_of_disjoint m e _ ?_).trans hword
                have hmem : (⟨e, 8 * p.N⟩ : Span) ∈ p.buffer .timer := by simp [buffer, he]
                have hapart := h.window_apart .timer hmem
                simp only [window, Span.Apart, Table.off, windowBytes] at hapart
                rw [List.length_replicate]
                omega
        | _ => cases htable
    | useDeviceTimer dev =>
        simp only [perform] at hrun
        split at hrun
        · next hnone =>
            obtain ⟨-, hdev, -⟩ := halloc hnone
            cases hrun
            exact load_channelWord hdev
        · next e he =>
            rw [he, Option.getD_some] at hlt
            cases hrun
            rw [he, Option.getD_some]
            exact load_channelWord hlt
    | _ => cases htable
  · rw [hbase, hkeep htable]
    exact (load_window_elsewhere (m := m) hlaid hrun htable).trans hword

end SchedPlane

/-! ## Runs of calls -/

/-- A plane and the memory behind it. -/
structure PlaneMem where
  plane : SchedPlane
  mem : ByteMem

/-- One call. A rejected setter (`struct` cannot pack a value) leaves some mirror, and a rejected `push`
    has counted. -/
inductive PlaneStep : PlaneMem → PlaneCall → PlaneMem → Prop
  | performed {s : PlaneMem} {c : PlaneCall} {p' : SchedPlane} {w : List MemOp}
      (halloc : s.plane.Allocates c) (hrun : s.plane.perform c = some (p', w)) :
      PlaneStep s c ⟨p', applyOps s.mem w⟩
  | rejected {s : PlaneMem} {c : PlaneCall} (hc : c ≠ .method .push) (host : ByteMem)
      (hhost : c.table = .ctrl ∨ host = s.plane.ctrlHost) :
      PlaneStep s c ⟨{ s.plane with ctrlHost := host }, s.mem⟩
  | pushRejected {s : PlaneMem} (hraise : s.plane.push = none) (host : ByteMem) :
      PlaneStep s (.method .push)
        ⟨{ s.plane with ctrlHost := host, generation := s.plane.generation + 1 }, s.mem⟩

/-- The calls, one behind another. -/
inductive PlaneRuns (s : PlaneMem) : List PlaneCall → PlaneMem → Prop
  | nil : PlaneRuns s [] s
  | concat {s₁ s₂ : PlaneMem} {calls : List PlaneCall} {c : PlaneCall} (hrun : PlaneRuns s calls s₁)
      (hstep : PlaneStep s₁ c s₂) : PlaneRuns s (calls ++ [c]) s₂

variable {s s' : PlaneMem} {c : PlaneCall} {calls : List PlaneCall}

theorem PlaneStep.laid (hstep : PlaneStep s c s') (h : s.plane.Laid) :
    s'.plane.Laid ∧ s'.plane.N = s.plane.N ∧ s'.plane.base = s.plane.base := by
  cases hstep with
  | performed halloc hrun =>
      obtain ⟨hN, hbase, -⟩ := SchedPlane.perform_layout hrun
      exact ⟨h.perform halloc hrun, hN, hbase⟩
  | rejected hc host hhost => exact ⟨⟨h.cap, h.order, h.timer, h.apart⟩, rfl, rfl⟩
  | pushRejected hraise host => exact ⟨⟨h.cap, h.order, h.timer, h.apart⟩, rfl, rfl⟩

theorem PlaneRuns.laid (hrun : PlaneRuns s calls s') (h : s.plane.Laid) :
    s'.plane.Laid ∧ s'.plane.N = s.plane.N ∧ s'.plane.base = s.plane.base := by
  induction hrun with
  | nil => exact ⟨h, rfl, rfl⟩
  | concat hrun hstep ih =>
      obtain ⟨hlaid, hN, hbase⟩ := ih
      obtain ⟨hlaid', hN', hbase'⟩ := hstep.laid hlaid
      exact ⟨hlaid', hN'.trans hN, hbase'.trans hbase⟩

/-- The channel words lead to the buffers, before a call and behind it. -/
theorem PlaneStep.channelOk (hstep : PlaneStep s c s') (h : s.plane.Laid)
    (hchan : s.plane.ChannelOk s.mem) : s'.plane.ChannelOk s'.mem := by
  cases hstep with
  | performed halloc hrun => exact SchedPlane.channelOk_perform h halloc hchan hrun
  | rejected hc host hhost => exact hchan
  | pushRejected hraise host => exact hchan

theorem PlaneStep.timerWord (hstep : PlaneStep s c s') (h : s.plane.Laid)
    (hword : s.mem.load64 (s.plane.base + timerOff) = s.plane.timerDev.getD 0) :
    s'.mem.load64 (s'.plane.base + timerOff) = s'.plane.timerDev.getD 0 := by
  cases hstep with
  | performed halloc hrun => exact SchedPlane.timerWord_perform h halloc hword hrun
  | rejected hc host hhost => exact hword
  | pushRejected hraise host => exact hword

/-- A device order table stays. -/
theorem PlaneStep.orderDev_isSome (hstep : PlaneStep s c s') (h : s.plane.orderDev.isSome = true) :
    s'.plane.orderDev.isSome = true := by
  cases hstep with
  | performed halloc hrun =>
      by_cases htable : .order = c.table
      · cases c with
        | method op => rwa [(SchedPlane.sameLayout_exec hrun).orderDev]
        | useDeviceOrder dev =>
            simp only [SchedPlane.perform] at hrun
            split at hrun <;> cases hrun
            · rfl
            · exact h
        | _ => cases htable
      · rwa [(SchedPlane.perform_layout hrun).2.2.2 htable]
  | rejected hc host hhost => exact h
  | pushRejected hraise host => exact h

/-- Every call can be made. -/
theorem exists_planeStep (s : PlaneMem) (c : PlaneCall) : ∃ s', PlaneStep s c s' := by
  by_cases hc : c = .method .push
  · subst hc
    rcases hpush : s.plane.push with _ | ⟨p', w⟩
    · exact ⟨_, .pushRejected hpush s.plane.ctrlHost⟩
    · exact ⟨_, .performed trivial hpush⟩
  · exact ⟨_, .rejected hc s.plane.ctrlHost (Or.inr rfl)⟩

theorem exists_planeRuns (s : PlaneMem) (calls : List PlaneCall) : ∃ s', PlaneRuns s calls s' := by
  induction calls using List.reverseRecOn with
  | nil => exact ⟨s, .nil⟩
  | append_singleton calls c ih =>
      obtain ⟨s₁, hrun⟩ := ih
      obtain ⟨s₂, hstep⟩ := exists_planeStep s₁ c
      exact ⟨s₂, hrun.concat hstep⟩

/-- A step writes to the call's table only. -/
theorem PlaneStep.elsewhere (hstep : PlaneStep s c s') (h : s.plane.Laid) {t : Table}
    (hne : t ≠ c.table) {x : Span} (hx : x ∈ s'.plane.spans t) {a : ℕ} (ha : x.Covers a 1) :
    s'.mem a = s.mem a := by
  have hlaid := (hstep.laid h).1
  cases hstep with
  | performed halloc hrun => exact SchedPlane.performs_elsewhere hlaid hrun hne hx ha
  | rejected hc host hhost => rfl
  | pushRejected hraise host => rfl

/-- Only a push changes the control block's window and the count. -/
theorem PlaneStep.unpublished (hstep : PlaneStep s c s') (h : s.plane.Laid)
    (hc : c ≠ .method .push) :
    s'.plane.generation = s.plane.generation ∧
      ∀ a, (s.plane.window .ctrl).Covers a 1 → s'.mem a = s.mem a := by
  obtain ⟨-, -, hbase⟩ := hstep.laid h
  refine ⟨?_, fun a ha => ?_⟩
  · cases hstep with
    | performed halloc hrun => exact (SchedPlane.perform_unpublished hrun hc).1
    | rejected hc host hhost => rfl
    | pushRejected hraise host => exact absurd rfl hc
  · by_cases htable : c.table = .ctrl
    · cases hstep with
      | performed halloc hrun => rw [(SchedPlane.perform_unpublished hrun hc).2 htable]; rfl
      | rejected hc host hhost => rfl
      | pushRejected hraise host => exact absurd rfl hc
    · have hwindow : s'.plane.window .ctrl = s.plane.window .ctrl := by
        rw [SchedPlane.window, SchedPlane.window, hbase]
      exact hstep.elsewhere h (Ne.symm htable) List.mem_cons_self (hwindow ▸ ha)

end SchedPass
