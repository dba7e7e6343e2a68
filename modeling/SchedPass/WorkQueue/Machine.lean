import Mathlib.Data.Finset.Prod
import Mathlib.Algebra.BigOperators.Group.Finset.Basic
import SchedPass.Lib.Runs
import SchedPass.WorkQueue.Driver

set_option autoImplicit false

/-! # One launch of a work-queue driver

The machine runs every thread of every CTA of one launch, in any interleaving, while the control
tables stay as they are. The hardware launches pending blocks in any order; in a CLC build it also
gives a pending block to a claiming CTA instead. A thread follows the CFG of `buildDriver`: entry
blocks, body, first barrier, claim by thread 0 into the CTA's shared slot, second barrier, load of
the shared slot, termination test.

There is one hardware barrier, so a release frees every waiting thread of the CTA, whichever of the
two `barrier0` calls it waits in. -/

namespace SchedPass

/-! ## State -/

/-- What is fixed for a launch: the build, the runtime slots, the tables, the grid and the CTA size. -/
structure Launch where
  C : Config
  useCLC : Bool
  R : RtSlots
  mem : ByteMem
  nctaid : Dim3
  threads : ℕ
  threads_pos : 0 < threads

/-- Where a thread of a driver CTA is. -/
inductive Pc
  /-- Launched, before the entry blocks. -/
  | entry
  /-- In the stock block, about to run the body. -/
  | stock (raw : ℕ)
  /-- In the loop block, about to run the body for `raw`. -/
  | loop (raw : ℕ)
  /-- Waiting at the claim's first barrier. -/
  | bar1
  /-- Thread 0 between the barriers, about to claim. -/
  | claim
  /-- Waiting at the claim's second barrier. -/
  | bar2
  /-- Past the barriers, about to load the shared slot. -/
  | read
  /-- Returned. -/
  | exited
  deriving DecidableEq, Repr

/-- A thread, with the raw ids it has run the body for. -/
structure Thread where
  pc : Pc := .entry
  log : List ℕ := []
  deriving DecidableEq, Repr

/-- A launched CTA: its threads, its shared slot, and the values claimed so far. -/
structure Cta where
  thread : ℕ → Thread := fun _ => {}
  shared : ℕ := 0
  claims : List ℕ := []

/-- The launch as a whole. `queue` is the ticket counter's word, `issued` counts the tickets taken. -/
structure Grid where
  pending : Finset Dim3
  queue : ℕ
  issued : ℕ
  cta : Dim3 → Option Cta

namespace Launch

/-- The `num_tasks` snapshot of the launch. -/
def ntasks (L : Launch) : ℕ := getNumTasks L.R L.mem

/-- The CTA's own index on the slot axis. -/
def first (L : Launch) (b : Dim3) : ℕ := ctaidIntrinsic L.C.slotAxis b

/-- The task that the body is called with for a raw id. -/
def task (L : Launch) (raw : ℕ) : ℕ := emitOrderRemap L.C L.R L.mem raw

/-- The blocks of the grid. -/
def blocks (L : Launch) : Finset Dim3 :=
  (Finset.range L.nctaid.x ×ˢ Finset.range L.nctaid.y ×ˢ Finset.range L.nctaid.z).image
    fun p => ⟨p.1, p.2.1, p.2.2⟩

/-- Nothing launched yet, the ticket counter primed to `q`. -/
def start (L : Launch) (q : ℕ) : Grid :=
  { pending := L.blocks, queue := q, issued := 0, cta := fun _ => none }

end Launch

/-! ## Steps -/

variable (L : Launch)

/-- One step of a thread of block `b` outside the barriers and the claim. -/
def Thread.advance (b : Dim3) (shared : ℕ) (th : Thread) : Option Thread :=
  match th.pc with
  | .entry =>
      match dispatch L.useCLC L.C L.R L.mem L.nctaid b with
      | .stock first => some { th with pc := .stock first }
      | .exit => some { th with pc := .exited }
      | .loop first => some { th with pc := .loop first }
  | .stock raw => some ⟨.exited, th.log ++ [raw]⟩
  | .loop raw => some ⟨.bar1, th.log ++ [raw]⟩
  -- every thread reads the shared slot that thread 0 has stored
  | .read => some { th with pc := if loopDone L.ntasks shared then .exited else .loop shared }
  | .bar1 | .claim | .bar2 | .exited => none

/-- Waiting at a barrier. -/
def Pc.waiting : Pc → Bool
  | .bar1 | .bar2 => true
  | _ => false

/-- What a barrier release does to thread `t`; only thread 0 enters the claim. -/
def Thread.release (t : ℕ) (th : Thread) : Thread :=
  match th.pc with
  | .bar1 => { th with pc := if t = 0 then .claim else .bar2 }
  | .bar2 => { th with pc := .read }
  | _ => th

def Cta.setThread (c : Cta) (t : ℕ) (th : Thread) : Cta :=
  { c with thread := Function.update c.thread t th }

def Cta.releaseAll (c : Cta) : Cta := { c with thread := fun t => (c.thread t).release t }

/-- Thread 0 stores the claimed value in the shared slot and goes to the second barrier. -/
def Cta.store (c : Cta) (v : ℕ) : Cta :=
  { thread := Function.update c.thread 0 ⟨.bar2, (c.thread 0).log⟩
    shared := v
    claims := c.claims ++ [v] }

/-- Steps that concern one CTA only. The barrier opens when every thread of the CTA that has not
    returned waits at it. -/
inductive CtaStep (b : Dim3) : Cta → Cta → Prop
  | thread {c : Cta} {t : ℕ} {th : Thread} (ht : t < L.threads)
      (h : (c.thread t).advance L b c.shared = some th) : CtaStep b c (c.setThread t th)
  | barrier {c : Cta} (hsome : ∃ t < L.threads, (c.thread t).pc.waiting = true)
      (hall : ∀ t < L.threads, (c.thread t).pc.waiting = true ∨ (c.thread t).pc = .exited) :
      CtaStep b c c.releaseAll

def Grid.setCta (s : Grid) (b : Dim3) (c : Cta) : Grid :=
  { s with cta := Function.update s.cta b (some c) }

/-- One step of the launch. -/
inductive Step : Grid → Grid → Prop
  /-- The hardware launches a pending block. -/
  | launch {s : Grid} {b : Dim3} (hb : b ∈ s.pending) :
      Step s ({ s with pending := s.pending.erase b }.setCta b {})
  /-- A CTA moves on its own. -/
  | cta {s : Grid} {b : Dim3} {c c' : Cta} (hc : s.cta b = some c) (h : CtaStep L b c c') :
      Step s (s.setCta b c')
  /-- Thread 0 takes a ticket. -/
  | ticket {s : Grid} {b : Dim3} {c : Cta} (hmode : L.useCLC = false) (hc : s.cta b = some c)
      (hpc : (c.thread 0).pc = .claim) :
      Step s ({ s with queue := (ticketClaim s.queue).2, issued := s.issued + 1 }.setCta b
        (c.store (ticketClaim s.queue).1))
  /-- A `try_cancel` that hands over the pending block `v`. -/
  | cancel {s : Grid} {b v : Dim3} {c : Cta} (hmode : L.useCLC = true) (hc : s.cta b = some c)
      (hpc : (c.thread 0).pc = .claim) (hv : v ∈ s.pending) :
      Step s ({ s with pending := s.pending.erase v }.setCta b (c.store (clcClaim L.ntasks (some v))))
  /-- A `try_cancel` that gets nothing; the hardware may refuse at any time. -/
  | cancelFail {s : Grid} {b : Dim3} {c : Cta} (hmode : L.useCLC = true) (hc : s.cta b = some c)
      (hpc : (c.thread 0).pc = .claim) :
      Step s (s.setCta b (c.store (clcClaim L.ntasks none)))

/-! ## What a run has done -/

/-- Every block was launched or cancelled and every thread has returned. -/
def Terminated (s : Grid) : Prop :=
  s.pending = ∅ ∧ ∀ b c, s.cta b = some c → ∀ t < L.threads, (c.thread t).pc = .exited

/-- The raw ids thread `t` of block `b` has run the body for. -/
def Grid.log (s : Grid) (b : Dim3) (t : ℕ) : List ℕ :=
  match s.cta b with
  | some c => (c.thread t).log
  | none => []

/-- The tasks that the `t`-th threads of all CTAs have run the body for. -/
def Grid.tasks (s : Grid) (t : ℕ) : Multiset ℕ :=
  ∑ b ∈ L.blocks, ((s.log b t).map L.task : Multiset ℕ)

/-- Each task of `[0, g)` has been run once, and no other: thread by thread. -/
def ExactlyOnce (g : ℕ) (s : Grid) : Prop :=
  ∀ t < L.threads, s.tasks L t = Multiset.range g

/-- Every run from `s₀` is finite, can be continued until it has terminated, and has then run each
    task of `[0, g)` exactly once. -/
structure RunsExactlyOnce (s₀ : Grid) (g : ℕ) : Prop where
  finite : Acc (fun s' s => Step L s s') s₀
  progress : ∀ s, Reaches (Step L) s₀ s → ¬ Terminated L s → ∃ s', Step L s s'
  exact : ∀ s, Reaches (Step L) s₀ s → Terminated L s → ExactlyOnce L g s

/-! ## Updates -/

variable {L}

@[simp] theorem Cta.setThread_self (c : Cta) (t : ℕ) (th : Thread) :
    (c.setThread t th).thread t = th := Function.update_self ..

theorem Cta.setThread_ne (c : Cta) {t u : ℕ} (th : Thread) (h : u ≠ t) :
    (c.setThread t th).thread u = c.thread u := Function.update_of_ne h ..

@[simp] theorem Cta.releaseAll_thread (c : Cta) (t : ℕ) :
    c.releaseAll.thread t = (c.thread t).release t := rfl

@[simp] theorem Cta.store_shared (c : Cta) (v : ℕ) : (c.store v).shared = v := rfl

@[simp] theorem Cta.store_claims (c : Cta) (v : ℕ) : (c.store v).claims = c.claims ++ [v] := rfl

@[simp] theorem Cta.store_zero (c : Cta) (v : ℕ) :
    (c.store v).thread 0 = ⟨.bar2, (c.thread 0).log⟩ := by
  simp only [Cta.store, Function.update_self]

theorem Cta.store_ne (c : Cta) (v : ℕ) {t : ℕ} (h : t ≠ 0) : (c.store v).thread t = c.thread t :=
  Function.update_of_ne h ..

@[simp] theorem Thread.release_log (t : ℕ) (th : Thread) : (th.release t).log = th.log := by
  unfold Thread.release
  split <;> rfl

@[simp] theorem Cta.store_log (c : Cta) (v t : ℕ) : ((c.store v).thread t).log = (c.thread t).log := by
  by_cases h : t = 0
  · subst h
    rw [store_zero]
  · rw [store_ne c v h]

@[simp] theorem Grid.setCta_self (s : Grid) (b : Dim3) (c : Cta) : (s.setCta b c).cta b = some c :=
  Function.update_self ..

theorem Grid.setCta_ne (s : Grid) {b b' : Dim3} (c : Cta) (h : b' ≠ b) :
    (s.setCta b c).cta b' = s.cta b' := Function.update_of_ne h ..

@[simp] theorem Grid.setCta_pending (s : Grid) (b : Dim3) (c : Cta) :
    (s.setCta b c).pending = s.pending := rfl

@[simp] theorem Grid.setCta_issued (s : Grid) (b : Dim3) (c : Cta) :
    (s.setCta b c).issued = s.issued := rfl

theorem Launch.mem_blocks {b : Dim3} :
    b ∈ L.blocks ↔ b.x < L.nctaid.x ∧ b.y < L.nctaid.y ∧ b.z < L.nctaid.z := by
  simp only [Launch.blocks, Finset.mem_image, Finset.mem_product, Finset.mem_range]
  constructor
  · rintro ⟨⟨x, y, z⟩, h, rfl⟩
    exact h
  · intro h
    exact ⟨(b.x, b.y, b.z), h, rfl⟩

end SchedPass
