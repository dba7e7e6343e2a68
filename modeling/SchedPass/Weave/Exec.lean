import SchedPass.Weave.Ir
import SchedPass.Util

set_option autoImplicit false

/-! # What a thread of a kernel does

A thread runs the control-flow graph of its kernel. The reads of `ctaid` and `nctaid` are explicit, as
are the calls of the module's device functions; every other instruction is left to a `Meaning`, which
answers from the operands and from the accesses made so far, so the answers of the memory may be any.
`run` is total: its fuel bounds the blocks that are entered, and the accesses made up to there are
part of the result. Two kernels with equal runs for all fuels make the same accesses, also when they
do not terminate. -/

namespace SchedPass

/-! ## Special registers -/

inductive SReg
  | ctaid (a : Axis)
  | nctaid (a : Axis)
  deriving DecidableEq, Repr

/-- The register that an intrinsic of the name reads. -/
def sregOf (name : String) : Option SReg :=
  if name = "llvm.nvvm.read.ptx.sreg.ctaid.x" then some (.ctaid .x)
  else if name = "llvm.nvvm.read.ptx.sreg.ctaid.y" then some (.ctaid .y)
  else if name = "llvm.nvvm.read.ptx.sreg.ctaid.z" then some (.ctaid .z)
  else if name = "llvm.nvvm.read.ptx.sreg.nctaid.x" then some (.nctaid .x)
  else if name = "llvm.nvvm.read.ptx.sreg.nctaid.y" then some (.nctaid .y)
  else if name = "llvm.nvvm.read.ptx.sreg.nctaid.z" then some (.nctaid .z)
  else none

/-- The register that the instruction reads, if it is such an intrinsic call. -/
def Instr.sreg (I : Instr) : Option SReg :=
  match I.op with
  | .call (some _) (some name) => sregOf name
  | _ => none

theorem Instr.not_phi_of_sreg {I : Instr} {r : SReg} (h : I.sreg = some r) : I.op ≠ .phi := by
  intro hop
  simp [sreg, hop] at h

theorem Instr.not_terminator_of_sreg {I : Instr} {r : SReg} (h : I.sreg = some r) :
    I.op ≠ .terminator := by
  intro hop
  simp [sreg, hop] at h

/-- A block's index and the shape of its grid. -/
structure Coords where
  ctaid : Dim3
  nctaid : Dim3
  deriving DecidableEq, Repr

def Dim3.set (d : Dim3) : Axis → ℕ → Dim3
  | .x, v => { d with x := v }
  | .y, v => { d with y := v }
  | .z, v => { d with z := v }

@[simp] theorem Dim3.get_set (d : Dim3) (a : Axis) (v : ℕ) : (d.set a v).get a = v := by
  cases a <;> rfl

theorem Dim3.get_set_ne (d : Dim3) {a b : Axis} (v : ℕ) (h : b ≠ a) :
    (d.set a v).get b = d.get b := by
  cases a <;> cases b <;> first | rfl | exact absurd rfl h

@[simp] theorem Dim3.set_get (d : Dim3) (a : Axis) : d.set a (d.get a) = d := by
  cases a <;> rfl

/-! ## Code and its meaning -/

/-- The code of a function. A clone keeps the name of the function it was made from. -/
structure Code where
  name : String
  func : Func
  /-- The number of parameters. -/
  arity : ℕ

/-- What the model leaves open. Instructions are told apart by their function and id; `exec` is given
    the operands and the accesses so far, and gives the new accesses and the value. -/
structure Meaning (V E : Type) where
  ofNat : ℕ → V
  undef : V
  const : String → Operand → V
  exec : String → ℕ → Coords → List V → List E → List E × V
  /-- Which successor a terminator takes. -/
  branch : String → ℕ → List V → ℕ
  /-- The function that an indirect call calls. -/
  target : List V → Option String

/-- An activation of a function: `ctaid` is what its own reads of the block index give. -/
structure Frame (V : Type) where
  code : Code
  ctaid : Dim3
  args : ℕ → V

inductive BlockEnd (V : Type)
  | jump (c : ℕ) (vals : ℕ → V)
  | ret (v : V)
  /-- The fuel ran out in a callee. -/
  | cut

section

variable {V E : Type} (D : String → Option Code) (J : Meaning V E) (hw : Coords)

/-- The value of an operand. -/
def Frame.eval (fr : Frame V) (vals : ℕ → V) : Operand → V
  | .inst v => vals v
  | .arg n => fr.args n
  | x => J.const fr.code.name x

/-- The value of a PHI in a block entered from `prev`. -/
def Frame.phiValue (fr : Frame V) (vals : ℕ → V) (prev : Option ℕ) (I : Instr) : V :=
  match prev.bind fun q => I.incoming.find? fun p => p.1 == q with
  | some p => fr.eval J vals p.2
  | none => J.undef

/-- The device function of the module that an instruction calls. -/
def Meaning.callee (I : Instr) (vs : List V) : Option Code :=
  match I.op with
  | .call none (some g) => D g
  | .call none none => (J.target vs).bind D
  | _ => none

/-- An instruction's value, with the accesses made up to and including it. -/
def Frame.value (call : Code → List V → List E → Option V × List E) (fr : Frame V) (I : Instr)
    (vs : List V) (h : List E) : Option V × List E :=
  match I.sreg with
  | some (.ctaid a) => (some (J.ofNat (fr.ctaid.get a)), h)
  | some (.nctaid a) => (some (J.ofNat (hw.nctaid.get a)), h)
  | none =>
      match J.callee D I vs with
      | some Q => call Q vs h
      | none =>
          let (new, v) := J.exec fr.code.name I.id hw vs h
          (some v, h ++ new)

/-- Leaving block `b` by its terminator; a `ret` has no successor. -/
def Frame.leave (fr : Frame V) (b : ℕ) (I : Instr) (vals : ℕ → V) : BlockEnd V :=
  let vs := I.args.map (fr.eval J vals)
  match (fr.code.func.cfg.succ b)[J.branch fr.code.name I.id vs]? with
  | some c => .jump c vals
  | none => .ret (vs.headD J.undef)

/-- The instructions of block `b`, entered from `prev`. The PHIs read the values `vals₀` that the block
    was entered with. -/
def runBlock (call : Code → List V → List E → Option V × List E) (fr : Frame V) (vals₀ : ℕ → V)
    (prev : Option ℕ) (b : ℕ) : List Instr → (ℕ → V) → List E → BlockEnd V × List E
  | [], _, h => (.cut, h)
  | I :: rest, vals, h =>
      match I.op with
      | .phi =>
          runBlock call fr vals₀ prev b rest (Function.update vals I.id (fr.phiValue J vals₀ prev I)) h
      | .terminator => (fr.leave J b I vals, h)
      | _ =>
          match fr.value D J hw call I (I.args.map (fr.eval J vals)) h with
          | (some v, h') => runBlock call fr vals₀ prev b rest (Function.update vals I.id v) h'
          | (none, h') => (.cut, h')

section

variable {D J hw} {call : Code → List V → List E → Option V × List E} {fr : Frame V}
  {vals₀ vals : ℕ → V} {prev : Option ℕ} {b : ℕ} {I : Instr} {rest : List Instr} {h : List E}

theorem runBlock_phi (hop : I.op = .phi) :
    runBlock D J hw call fr vals₀ prev b (I :: rest) vals h =
      runBlock D J hw call fr vals₀ prev b rest
        (Function.update vals I.id (fr.phiValue J vals₀ prev I)) h := by
  simp only [runBlock, hop]

theorem runBlock_terminator (hop : I.op = .terminator) :
    runBlock D J hw call fr vals₀ prev b (I :: rest) vals h = (fr.leave J b I vals, h) := by
  simp only [runBlock, hop]

theorem runBlock_value (hphi : I.op ≠ .phi) (hterm : I.op ≠ .terminator) :
    runBlock D J hw call fr vals₀ prev b (I :: rest) vals h =
      match fr.value D J hw call I (I.args.map (fr.eval J vals)) h with
      | (some v, h') =>
          runBlock D J hw call fr vals₀ prev b rest (Function.update vals I.id v) h'
      | (none, h') => (.cut, h') := by
  rw [runBlock]
  split
  · next hop => exact absurd hop hphi
  · next hop => exact absurd hop hterm
  · rfl

theorem Frame.value_sreg_ctaid {a : Axis} {vs : List V} (hI : I.sreg = some (.ctaid a)) :
    fr.value D J hw call I vs h = (some (J.ofNat (fr.ctaid.get a)), h) := by
  simp only [value, hI]

end

/-- An activation of a device function reads the block's own index. -/
def deviceFrame (Q : Code) (as : List V) : Frame V :=
  { code := Q, ctaid := hw.ctaid, args := fun n => as.getD n J.undef }

/-- A thread of the block `hw`, from block `b` of the frame's function on: the value returned, if the
    fuel lets it return, and the accesses made. -/
def run : ℕ → Frame V → (ℕ → V) → Option ℕ → ℕ → List E → Option V × List E
  | 0, _, _, _, _, h => (none, h)
  | n + 1, fr, vals, prev, b, h =>
      let call Q as h := run n (deviceFrame J hw Q as) (fun _ => J.undef) none Q.func.cfg.entry h
      match runBlock D J hw call fr vals prev b (fr.code.func.body b) vals h with
      | (.jump c vals', h') => run n fr vals' (some b) c h'
      | (.ret v, h') => (some v, h')
      | (.cut, h') => (none, h')

/-- A call of the frame's function, with no access made yet. -/
def runFrame (n : ℕ) (fr : Frame V) : Option V × List E :=
  run D J hw n fr (fun _ => J.undef) none fr.code.func.cfg.entry []

end

/-! ## What a thread can notice -/

/-- The special registers that the code reads are the same under both views. -/
def Code.SeesSame (P : Code) (t t' nctaid nctaid' : Dim3) : Prop :=
  ∀ b, ∀ I ∈ P.func.body b, ∀ a, (I.sreg = some (.ctaid a) → t.get a = t'.get a) ∧
    (I.sreg = some (.nctaid a) → nctaid.get a = nctaid'.get a)

section

variable {V E : Type} {D : String → Option Code} {J : Meaning V E} {hw hw' : Coords} {P : Code}
  {t t' : Dim3} {args : ℕ → V}

theorem Meaning.exists_of_callee {I : Instr} {vs : List V} {Q : Code}
    (h : J.callee D I vs = some Q) : ∃ g, D g = some Q := by
  unfold callee at h
  split at h
  · exact ⟨_, h⟩
  · obtain ⟨g, -, hg⟩ := Option.bind_eq_some_iff.1 h
    exact ⟨g, hg⟩
  · cases h

/-- Equal callees and equal special registers make equal values. -/
theorem value_congr {call call' : Code → List V → List E → Option V × List E}
    (hexec : ∀ name id vs h, J.exec name id hw vs h = J.exec name id hw' vs h)
    (hcall : ∀ g Q, D g = some Q → ∀ as h, call Q as h = call' Q as h) {I : Instr}
    (hI : ∀ a, (I.sreg = some (.ctaid a) → t.get a = t'.get a) ∧
      (I.sreg = some (.nctaid a) → hw.nctaid.get a = hw'.nctaid.get a))
    (vs : List V) (h : List E) :
    (Frame.mk P t args).value D J hw call I vs h
      = (Frame.mk P t' args).value D J hw' call' I vs h := by
  unfold Frame.value
  cases hr : I.sreg with
  | some r =>
      cases r with
      | ctaid a =>
          show (some (J.ofNat (t.get a)), h) = (some (J.ofNat (t'.get a)), h)
          rw [(hI a).1 hr]
      | nctaid a =>
          show (some (J.ofNat (hw.nctaid.get a)), h) = (some (J.ofNat (hw'.nctaid.get a)), h)
          rw [(hI a).2 hr]
  | none =>
      cases hQ : J.callee D I vs with
      | none => simp only [hexec]
      | some Q =>
          obtain ⟨g, hg⟩ := Meaning.exists_of_callee hQ
          simp only [hcall g Q hg]

theorem runBlock_congr {call call' : Code → List V → List E → Option V × List E}
    (hexec : ∀ name id vs h, J.exec name id hw vs h = J.exec name id hw' vs h)
    (hcall : ∀ g Q, D g = some Q → ∀ as h, call Q as h = call' Q as h) (vals₀ : ℕ → V)
    (prev : Option ℕ) (b : ℕ) {l : List Instr}
    (hl : ∀ I ∈ l, ∀ a, (I.sreg = some (.ctaid a) → t.get a = t'.get a) ∧
      (I.sreg = some (.nctaid a) → hw.nctaid.get a = hw'.nctaid.get a))
    (vals : ℕ → V) (h : List E) :
    runBlock D J hw call ⟨P, t, args⟩ vals₀ prev b l vals h
      = runBlock D J hw' call' ⟨P, t', args⟩ vals₀ prev b l vals h := by
  induction l generalizing vals h with
  | nil => rfl
  | cons I rest ih =>
      have hrest : ∀ vals h, runBlock D J hw call ⟨P, t, args⟩ vals₀ prev b rest vals h
          = runBlock D J hw' call' ⟨P, t', args⟩ vals₀ prev b rest vals h := fun vals h =>
        ih (fun K hK => hl K (List.mem_cons_of_mem I hK)) vals h
      by_cases hphi : I.op = .phi
      · rw [runBlock_phi hphi, runBlock_phi hphi, hrest]
        rfl
      · by_cases hterm : I.op = .terminator
        · rw [runBlock_terminator hterm, runBlock_terminator hterm]
          rfl
        · rw [runBlock_value hphi hterm, runBlock_value hphi hterm,
            value_congr hexec hcall (hl I (List.mem_cons_self ..))]
          simp only [hrest]
          rfl

/-- **A thread under two views of its block and its grid**: if the special registers that its code and
    the device functions read are the same, and no other instruction tells the views apart, the runs
    are equal. -/
theorem run_congr (hexec : ∀ name id vs h, J.exec name id hw vs h = J.exec name id hw' vs h)
    (hD : ∀ g Q, D g = some Q → Q.SeesSame hw.ctaid hw'.ctaid hw.nctaid hw'.nctaid) (n : ℕ)
    (hP : P.SeesSame t t' hw.nctaid hw'.nctaid) (vals : ℕ → V) (prev : Option ℕ) (b : ℕ)
    (h : List E) :
    run D J hw n ⟨P, t, args⟩ vals prev b h = run D J hw' n ⟨P, t', args⟩ vals prev b h := by
  induction n generalizing P t t' args vals prev b h with
  | zero => rfl
  | succ n ih =>
      have hcall : ∀ g Q, D g = some Q → ∀ as h,
          run D J hw n (deviceFrame J hw Q as) (fun _ => J.undef) none Q.func.cfg.entry h
            = run D J hw' n (deviceFrame J hw' Q as) (fun _ => J.undef) none Q.func.cfg.entry h :=
        fun g Q hg as h => ih (hD g Q hg) ..
      have hblock := @runBlock_congr V E D J hw hw' P t t' args _ _ hexec hcall vals prev b
        (P.func.body b) (fun I hI a => hP b I hI a) vals h
      rw [run, run, hblock]
      generalize runBlock D J hw' _ ⟨P, t', args⟩ vals prev b _ vals h = r
      obtain ⟨e, h'⟩ := r
      cases e with
      | jump c vals' => exact ih hP ..
      | ret v => rfl
      | cut => rfl

end

end SchedPass
