import Mathlib.Data.Nat.Bitwise
import SchedPass.Util

set_option autoImplicit false

/-! # The serving control plane (`sched_rt.py`)

`SchedPlane` keeps a host mirror of the control block and publishes it into the arena with `push`;
the order table is written directly, into the arena or as a stream-ordered copy into a device table.
A method either changes the mirror or issues memory writes (`MemOp`), and `exec` runs the methods by
name, so that a hook is a list of them. `none` stands for a raised exception (`struct.pack_into` on a
value or an offset out of range). -/

namespace SchedPass

/-! ## Arena layout -/

/-- `i32[max_tasks]`; with the device channel, the table's address. -/
def orderOff : ℕ := 0x00000

/-- The control block: a 32-byte header and 8-byte rows. -/
def ctrlOff : ℕ := 0x40000

/-- `u64[max_tasks]`; with the device channel, the rows' address. -/
def timerOff : ℕ := 0x80000

/-- The ticket counter. -/
def queueOff : ℕ := 0xC0000

def arenaBytes : ℕ := 0x100000

/-- Keeps every table inside its 256 KiB window. -/
def maxTasksLimit : ℕ := 16384

/-! ## Control block layout -/

def ctrlNumTasksOff : ℕ := 4

def ctrlFlagsOff : ℕ := 24

def ctrlOrderSizeOff : ℕ := 28

def ctrlRowsOff : ℕ := 32

def rowSize : ℕ := 8

/-- `ctrl.flags` bit 0 suppresses the woven timer. -/
def flagTimerOff : ℕ := 1

/-! ## Memory writes -/

/-- A write that the host issues: immediate, into the arena's host mapping, or queued on the current
    stream, behind the launches enqueued before it. -/
structure MemOp where
  queued : Bool
  addr : ℕ
  bytes : List UInt8
  deriving DecidableEq, Repr

/-- The write takes effect. -/
def MemOp.apply (m : ByteMem) (op : MemOp) : ByteMem := m.store op.addr op.bytes

/-- All writes take effect in order, as no launch is in flight to be waited for. -/
def applyOps (m : ByteMem) (ops : List MemOp) : ByteMem := ops.foldl MemOp.apply m

/-! ## The plane -/

/-- `SchedPlane`: capacity, arena base, the host mirror of the control block and the generation
    count; the device row buffers are `none` on the host-mapped channels. -/
structure SchedPlane where
  N : ℕ
  base : ℕ
  ctrlHost : ByteMem := ByteMem.zeroed
  generation : ℕ := 0
  timerDev : Option ℕ := none
  orderDev : Option ℕ := none

namespace SchedPlane

def ctrlBytes (p : SchedPlane) : ℕ := ctrlRowsOff + rowSize * p.N

/-- `struct.pack_into("<I", …)`. -/
def packU32 (host : ByteMem) (off v : ℕ) : Option ByteMem :=
  if v < 2 ^ 32 then some (host.store off (ByteMem.toBytes 4 v)) else none

def setOrder (p : SchedPlane) (tasks : List ℕ) : List MemOp :=
  let n := min tasks.length p.N
  let bytes := ByteMem.wordsToBytes (tasks.take n)
  match p.orderDev with
  | some dev => [⟨true, dev, bytes⟩]
  | none => [⟨false, p.base + orderOff, bytes⟩]

def resetOrder (p : SchedPlane) : List MemOp := p.setOrder (List.range p.N)

def setOrderSize (p : SchedPlane) (n : ℕ) : Option SchedPlane :=
  (packU32 p.ctrlHost ctrlOrderSizeOff n).map fun host => { p with ctrlHost := host }

def setNumTasks (p : SchedPlane) (n : ℕ) : Option SchedPlane :=
  (packU32 p.ctrlHost ctrlNumTasksOff n).map fun host => { p with ctrlHost := host }

def setTimerEnabled (p : SchedPlane) (on : Bool) : Option SchedPlane :=
  let flags := p.ctrlHost.load32 ctrlFlagsOff
  let flags := Nat.ldiff flags flagTimerOff ||| if on then 0 else flagTimerOff
  (packU32 p.ctrlHost ctrlFlagsOff flags).map fun host => { p with ctrlHost := host }

/-- `q` is the bit pattern of the row's float. -/
def setRow (p : SchedPlane) (i q tau hint : ℕ) : Option SchedPlane :=
  let off := ctrlRowsOff + rowSize * i
  let row := ByteMem.toBytes 4 q ++ ByteMem.toBytes 2 tau ++ ByteMem.toBytes 1 hint
  if off + 7 ≤ p.ctrlBytes then some { p with ctrlHost := p.ctrlHost.store off row } else none

/-- Body first, the generation word last. -/
def push (p : SchedPlane) : Option (SchedPlane × List MemOp) :=
  let generation := p.generation + 1
  (packU32 p.ctrlHost 0 generation).map fun host =>
    ({ p with ctrlHost := host, generation := generation },
      [⟨false, p.base + ctrlOff + 4, host.slice 4 (p.ctrlBytes - 4)⟩,
        ⟨false, p.base + ctrlOff, host.slice 0 4⟩])

def clearTimer (p : SchedPlane) : List MemOp :=
  match p.timerDev with
  | some dev => [⟨true, dev, List.replicate (8 * p.N) 0⟩]
  | none => [⟨false, p.base + timerOff, List.replicate (8 * p.N) 0⟩]

/-- `SchedPlane.__init__` over an arena at `base`, which `SchedArena.__init__` has zeroed: identity
    order, then a first `push`. -/
def create (N base : ℕ) : Option (SchedPlane × List MemOp) :=
  if N ≤ maxTasksLimit then
    let p : SchedPlane := { N := N, base := base }
    p.push.map fun (p', w) => (p', ⟨false, base, List.replicate arenaBytes 0⟩ :: p.resetOrder ++ w)
  else
    none

/-- `use_device_timer` with a row buffer at `dev`: the arena's timer word becomes its address. -/
def useDeviceTimer (p : SchedPlane) (dev : ℕ) : SchedPlane × List MemOp :=
  ({ p with timerDev := some dev },
    [⟨true, dev, List.replicate (8 * p.N) 0⟩,
      ⟨false, p.base + timerOff, ByteMem.toBytes 8 dev⟩])

/-- `use_device_order` with a table at `dev`, which starts as the identity: the arena's order word
    becomes its address. -/
def useDeviceOrder (p : SchedPlane) (dev : ℕ) : SchedPlane × List MemOp :=
  ({ p with orderDev := some dev },
    [⟨true, dev, ByteMem.wordsToBytes (List.range p.N)⟩,
      ⟨false, p.base + orderOff, ByteMem.toBytes 8 dev⟩])

end SchedPlane

/-! ## Running methods by name -/

/-- A call of a plane method. -/
inductive PlaneOp
  | setOrder (tasks : List ℕ)
  | setOrderSize (n : ℕ)
  | setNumTasks (n : ℕ)
  | setTimerEnabled (on : Bool)
  | setRow (i q tau hint : ℕ)
  | push
  | clearTimer
  deriving DecidableEq, Repr

/-- `install_order`: table first, validity stamp second. -/
def installOrder (tasks : List ℕ) (n : ℕ) : List PlaneOp := [.setOrder tasks, .setOrderSize n]

namespace SchedPlane

/-- One call: the plane afterwards and the writes issued. -/
def exec (p : SchedPlane) : PlaneOp → Option (SchedPlane × List MemOp)
  | .setOrder tasks => some (p, p.setOrder tasks)
  | .setOrderSize n => (p.setOrderSize n).map (·, [])
  | .setNumTasks n => (p.setNumTasks n).map (·, [])
  | .setTimerEnabled on => (p.setTimerEnabled on).map (·, [])
  | .setRow i q tau hint => (p.setRow i q tau hint).map (·, [])
  | .push => p.push
  | .clearTimer => some (p, p.clearTimer)

variable {p p' : SchedPlane} {w : List MemOp}

/-- A call that packs one word changes the mirror there and writes nothing. -/
theorem exists_packed {off v : ℕ}
    (h : ((packU32 p.ctrlHost off v).map fun host => { p with ctrlHost := host }).map
      (fun p => (p, ([] : List MemOp))) = some (p', w)) :
    ∃ host, packU32 p.ctrlHost off v = some host ∧ p' = { p with ctrlHost := host } ∧ w = [] := by
  obtain ⟨p₁, h₁, heq⟩ := Option.map_eq_some_iff.1 h
  obtain ⟨host, hpack, rfl⟩ := Option.map_eq_some_iff.1 h₁
  cases heq
  exact ⟨host, hpack, rfl, rfl⟩

end SchedPlane

end SchedPass
