import SchedPass.Weave.Policy
import SchedPass.Weave.Stretch
import SchedPass.Weave.Weaver

set_option autoImplicit false

/-! # A machine for the emitted code

The IR says of what kind an instruction is; here the instructions of new code get their operators, in the
order of their ids. `Computes` is a triple for builder code: on a machine whose new instructions compute
their operators, the code is run from where the builder stood to where it stands, and leaves the values
that the postcondition names. There is a rule for a new instruction (`Computes.create`), for a sequence
(`Computes.bind`) and for code under a condition (`joinIf_computes`). -/

namespace SchedPass

open Func

/-! ## Operators -/

/-- A value of a register. -/
inductive Datum (α : Type)
  | int (n : ℕ)
  | float (x : Float32.Model)
  | other (x : α)

/-- An `i1`. -/
def Datum.ofBool {α : Type} (b : Bool) : Datum α := .int b.toNat

/-- What `IRBuilder` was asked for. -/
inductive Operator
  /-- A load of an integer of so many bytes. -/
  | load (width : ℕ)
  | loadF32
  /-- `getelementptr` over elements of so many bytes. -/
  | gep (width : ℕ)
  /-- A cast that keeps the number: between pointers and integers, and `zext`. -/
  | cast
  | add
  | sub
  | mul
  | and
  | or
  | xor
  | fsub
  | fmul
  | eq
  | ne
  | ult
  | fogt
  | select
  /-- A special register or the clock, which reads `n`. -/
  | read (n : ℕ)
  /-- `atomicrmw add` on 64 bits. -/
  | atomicAdd
  /-- `ctaid` or `nctaid`. -/
  | sreg
  | condBr
  | br
  | phi
  deriving DecidableEq

section

variable {α : Type}

/-- What the operator makes of its operands. The arithmetic is that of `i64`. -/
def Operator.eval (m : ByteMem) : Operator → List (Datum α) → Datum α
  | .load width, [.int a] => .int (m.load a width)
  | .loadF32, [.int a] => .float (SchedPass.loadF32 m a)
  | .gep width, [.int a, .int i] => .int (a + width * i)
  | .cast, [x] => x
  | .add, [.int a, .int b] => .int ((a + b) % 2 ^ 64)
  | .sub, [.int a, .int b] => .int ((2 ^ 64 + a - b) % 2 ^ 64)
  | .mul, [.int a, .int b] => .int (a * b % 2 ^ 64)
  | .and, [.int a, .int b] => .int (a &&& b)
  | .or, [.int a, .int b] => .int (a ||| b)
  | .xor, [.int a, .int b] => .int (a ^^^ b)
  | .fsub, [.float x, .float y] => .float (x - y)
  | .fmul, [.float x, .float y] => .float (x * y)
  | .eq, [.int a, .int b] => .ofBool (a == b)
  | .ne, [.int a, .int b] => .ofBool (a != b)
  | .ult, [.int a, .int b] => .ofBool (decide (a < b))
  | .fogt, [.float x, .float y] => .ofBool (y.lt x)
  | .select, [.int c, x, y] => if c = 0 then y else x
  | .read n, [] => .int n
  | .atomicAdd, [.int a, .int _] => .int (m.load64 a)
  | _, _ => .int 0

@[simp] theorem Operator.eval_and_ofBool (m : ByteMem) (a b : Bool) :
    Operator.eval m .and [.ofBool a, .ofBool b] = (.ofBool (a && b) : Datum α) := by
  cases a <;> cases b <;> rfl

@[simp] theorem Operator.eval_or_ofBool (m : ByteMem) (a b : Bool) :
    Operator.eval m .or [.ofBool a, .ofBool b] = (.ofBool (a || b) : Datum α) := by
  cases a <;> cases b <;> rfl

@[simp] theorem Operator.eval_select (m : ByteMem) (c : Bool) (x y : Datum α) :
    Operator.eval m .select [.ofBool c, x, y] = if c then x else y := by
  cases c <;> rfl

@[simp] theorem Operator.eval_gep_one (m : ByteMem) (a i : ℕ) :
    Operator.eval m (.gep 1) [.int a, .int i] = (.int (a + i) : Datum α) :=
  congrArg (fun j => Datum.int (a + j)) (Nat.one_mul i)

/-- Has the operator a value of its own? -/
def Operator.Computed : Operator → Bool
  | .sreg | .condBr | .br | .phi => false
  | _ => true

/-- An instruction that may have such an operator: it calls nothing of the module, and reads no block index. -/
def Opcode.mayCompute : Opcode → Bool
  | .phi | .terminator | .call none _ => false
  | .call (some _) (some name) => (sregOf name).isNone
  | _ => true

/-- Code under a condition, and `n` PHIs behind it. -/
def Operator.under (ops : List Operator) (n : ℕ) : List Operator :=
  .condBr :: .br :: (ops ++ List.replicate n .phi)

@[simp] theorem Operator.length_under (ops : List Operator) (n : ℕ) :
    (Operator.under ops n).length = ops.length + n + 2 := by
  simp [Operator.under]

/-- The updates of the timer's rows: where, and by how much. -/
def Operator.updates : Operator → List (Datum α) → List (ℕ × ℕ)
  | .atomicAdd, [.int a, .int d] => [(a, d)]
  | _, _ => []

def Constant.datum (addr : String → ℕ) : Constant → Datum α
  | .int width value => .int (value % 2 ^ width).toNat
  | .float x => .float x
  | .nullptr => .int 0
  | .global name => .int (addr name)

end

/-! ## Machines -/

/-- A thread, and where it runs. The memory that the new code reads stays as it is while the thread is in
    it; what else the thread does in the memory is among its accesses. -/
structure Machine (α E : Type) where
  D : String → Option Code
  J : Meaning (Datum α) E
  hw : Coords
  fr : Frame (Datum α)
  mem : ByteMem
  /-- Where the globals are. -/
  addr : String → ℕ
  /-- The accesses that update the timer's rows. -/
  update : E → Option (ℕ × ℕ)

namespace Machine

variable {α E β γ : Type} (X : Machine α E)

/-- Instruction `id` computes its operator. -/
def DoesOne (id : ℕ) : Operator → Prop
  | .condBr => ∀ c, X.J.branch X.fr.code.name id [.int c] = if c = 0 then 1 else 0
  | .br => X.J.branch X.fr.code.name id [] = 0
  | .sreg | .phi => True
  | o => ∀ vs h, (X.J.exec X.fr.code.name id X.hw vs h).1.filterMap X.update = o.updates vs ∧
      (X.J.exec X.fr.code.name id X.hw vs h).2 = o.eval X.mem vs

/-- The instructions from `n` on compute these operators. -/
def Does : ℕ → List Operator → Prop
  | _, [] => True
  | n, o :: ops => X.DoesOne n o ∧ Does (n + 1) ops

theorem does_append {n : ℕ} {ops ops' : List Operator} :
    X.Does n (ops ++ ops') ↔ X.Does n ops ∧ X.Does (n + ops.length) ops' := by
  induction ops generalizing n with
  | nil => simp [Does]
  | cons o ops ih =>
      have hlen : n + 1 + ops.length = n + (o :: ops).length := by
        rw [List.length_cons]
        omega
      rw [List.cons_append, Does, Does, ih, hlen, and_assoc]

/-- The constants of new code, and the integers of the registers that are read. -/
structure Reads (W : Weaver) : Prop where
  ofNat : ∀ n, X.J.ofNat n = .int n
  const : ∀ c, X.J.const X.fr.code.name (W.const c) = c.datum X.addr

/-- The memory has the slot's global, or the slot for its baked address. -/
def Holds (s : RtSlot) (Name : String) : Prop :=
  (∀ p, s.global = some p → X.mem.load64 (X.addr Name) = p) ∧
    (s.global = none → s.bakedAddr ≠ 0 →
      X.mem.load64 (X.addr (Name ++ ".bakedslot")) = s.bakedAddr)

theorem does_of_getElem? {n : ℕ} {ops : List Operator}
    (h : ∀ i o, ops[i]? = some o → X.DoesOne (n + i) o) : X.Does n ops := by
  induction ops generalizing n with
  | nil => trivial
  | cons o ops ih =>
      refine ⟨h 0 o rfl, ih fun i o' ho' => ?_⟩
      rw [Nat.add_assoc, Nat.add_comm 1 i]
      exact h (i + 1) o' ho'

/-- Where the constants are numbered apart, there is a machine for any operators, frame and memory. -/
theorem exists_machine {W : Weaver} (hW : Function.Injective W.constant) (hw : Coords)
    (fr : Frame (Datum α)) (mem : ByteMem) (addr : String → ℕ) (n : ℕ) (ops : List Operator) :
    ∃ X : Machine α (ℕ × ℕ), X.hw = hw ∧ X.fr = fr ∧ X.mem = mem ∧ X.addr = addr ∧ X.Reads W ∧
      X.Does n ops := by
  classical
  let J : Meaning (Datum α) (ℕ × ℕ) :=
    { ofNat := .int
      undef := .int 0
      const := fun _ x => if h : ∃ c, W.const c = x then h.choose.datum addr else .int 0
      exec := fun _ id _ vs _ => ops[id - n]?.elim ([], .int 0) fun o => (o.updates vs, o.eval mem vs)
      branch := fun _ id vs => if ops[id - n]? = some .condBr ∧ vs = [.int 0] then 1 else 0
      target := fun _ => none }
  refine ⟨⟨fun _ => none, J, hw, fr, mem, addr, some⟩, rfl, rfl, rfl, rfl, ⟨fun _ => rfl, fun c => ?_⟩,
    does_of_getElem? _ fun i o ho => ?_⟩
  · have h : ∃ c', W.const c' = W.const c := ⟨c, rfl⟩
    have hc : h.choose = c := hW (Operand.otherConst.inj h.choose_spec)
    show (if h : ∃ c', W.const c' = W.const c then h.choose.datum addr else .int 0) = _
    rw [dif_pos h, hc]
  · have hi : ops[n + i - n]? = some o := by rw [Nat.add_sub_cancel_left, ho]
    have hexec : ∀ name vs h, J.exec name (n + i) hw vs h = (o.updates vs, o.eval mem vs) := by
      intro name vs h
      simp only [J, hi, Option.elim_some]
    cases o with
    | condBr => intro c; simp [J, ho]
    | br => simp [DoesOne, J]
    | sreg | phi => trivial
    | _ =>
        intro vs h
        rw [hexec]
        exact ⟨List.filterMap_some .., rfl⟩

/-- The operand is there already, and what it is worth. -/
structure Has (F : Func) (vals : ℕ → Datum α) (x : Operand) (d : Datum α) : Prop where
  old : x.All (· < F.next)
  eval_eq : X.fr.eval X.J vals x = d

/-- What all these operands are worth. -/
def Knows (F : Func) (vals : ℕ → Datum α) (known : List (Operand × Datum α)) : Prop :=
  ∀ x d, (x, d) ∈ known → X.Has F vals x d

/-- The code, put in front of `v`, is run from where `v` stood to where it stands, with `Q` of its result,
    the function and the values; it makes the updates `us`. -/
def Computes (ops : List Operator) (c : Emit β) (v : ℕ) (F : Func) (vals : ℕ → Datum α)
    (us : List (ℕ × ℕ)) (Q : β → Func → (ℕ → Datum α) → Prop) : Prop :=
  F.WellFormed → F.Spot v → X.Does F.next ops → ∃ vals',
    (∃ b l b' l' f, Stretch X.D X.J X.hw X.update X.fr F (c F).2 v b l b' l' f vals vals' us) ∧
      (c F).2.next = F.next + ops.length ∧ Q (c F).1 (c F).2 vals'

variable {X} {F F' : Func} {v n : ℕ} {vals vals' : ℕ → Datum α} {us us' : List (ℕ × ℕ)}
  {ops ops' : List Operator} {c : Emit β} {k : β → Emit γ} {Q Q₁ : β → Func → (ℕ → Datum α) → Prop}
  {Q' : γ → Func → (ℕ → Datum α) → Prop} {known : List (Operand × Datum α)} {x : Operand} {d : Datum α}

theorem Has.mono (h : X.Has F vals x d) (hle : F.next ≤ F'.next) (hsame : SameOld F.next vals vals') :
    X.Has F' vals' x d := by
  refine ⟨h.old.mono fun u hu => Nat.lt_of_lt_of_le hu hle, ?_⟩
  rw [← h.eval_eq]
  cases x with
  | inst u => exact hsame u h.old
  | _ => rfl

theorem Knows.mono (h : X.Knows F vals known) (hle : F.next ≤ F'.next)
    (hsame : SameOld F.next vals vals') : X.Knows F' vals' known :=
  fun x d hx => (h x d hx).mono hle hsame

theorem Knows.cons (h : X.Knows F vals known) (hx : X.Has F vals x d) :
    X.Knows F vals ((x, d) :: known) := by
  intro y e hy
  rcases List.mem_cons.1 hy with heq | hy
  · obtain ⟨rfl, rfl⟩ := Prod.mk.inj heq
    exact hx
  · exact h y e hy

theorem Knows.head (h : X.Knows F vals ((x, d) :: known)) : X.Has F vals x d :=
  h x d (List.mem_cons_self ..)

theorem Knows.tail (h : X.Knows F vals ((x, d) :: known)) : X.Knows F vals known :=
  fun y e hy => h y e (List.mem_cons_of_mem _ hy)

theorem Knows.subset {known' : List (Operand × Datum α)} (h : X.Knows F vals known)
    (hsub : known' ⊆ known) : X.Knows F vals known' :=
  fun x d hx => h x d (hsub hx)

/-! ## Sequences -/

theorem Computes.pure {a : β} (hQ : Q a F vals) : X.Computes [] (Pure.pure a) v F vals [] Q := by
  rintro hF ⟨b, l, I, post, hat⟩ -
  exact ⟨vals, ⟨b, l, b, l, _, .refl hF hat⟩, rfl, hQ⟩

theorem Computes.mono (hc : X.Computes ops c v F vals us Q) (hQ : ∀ a F' vals', Q a F' vals' → Q₁ a F' vals') :
    X.Computes ops c v F vals us Q₁ := by
  intro hF hv hops
  obtain ⟨vals', hstretch, hnext, h⟩ := hc hF hv hops
  exact ⟨vals', hstretch, hnext, hQ _ _ _ h⟩

/-- What was known is known still. -/
theorem Computes.knowing (hc : X.Computes ops c v F vals us Q) (hs : X.Knows F vals known) :
    X.Computes ops c v F vals us fun a F' vals' => X.Knows F' vals' known ∧ Q a F' vals' := by
  intro hF hv hops
  obtain ⟨vals', ⟨b, l, b', l', f, hstretch⟩, hnext, h⟩ := hc hF hv hops
  exact ⟨vals', ⟨b, l, b', l', f, hstretch⟩, hnext, hs.mono hstretch.next_le hstretch.same, h⟩

/-- One after the other. -/
theorem Computes.bind (hc : X.Computes ops c v F vals us Q)
    (hk : ∀ a F' vals', Q a F' vals' → X.Computes ops' (k a) v F' vals' us' Q') :
    X.Computes (ops ++ ops') (c >>= k) v F vals (us ++ us') Q' := by
  intro hF hv hops
  obtain ⟨hops, hops'⟩ := X.does_append.1 hops
  obtain ⟨vals₁, ⟨b, l, b₁, l₁, f₁, hstretch⟩, hnext, h⟩ := hc hF hv hops
  obtain ⟨I, post, -, hat⟩ := hstretch.spot
  obtain ⟨vals₂, ⟨b₂, l₂, b', l', f', hstretch'⟩, hnext', h'⟩ :=
    hk _ _ vals₁ h hstretch.wellFormed ⟨_, _, _, _, hat⟩ (hnext ▸ hops')
  obtain ⟨I', post', hat', -⟩ := hstretch'.spot
  obtain ⟨rfl, rfl, -, -⟩ := hat.unique hstretch.wellFormed hat'
  refine ⟨vals₂, ⟨b, l, b', l', _, hstretch.trans hstretch' hF⟩, ?_, h'⟩
  show ((k (c F).1) (c F).2).2.next = _
  rw [hnext', hnext, List.length_append, Nat.add_assoc]

/-- **The triple, run.** A thread that comes to where `v` stood gets to where it stands. -/
theorem Computes.runs (h : X.Computes ops c v F vals us Q) (hF : F.WellFormed) {b : ℕ} {l post : List Instr}
    {I : Instr} (hat : F.At v b l I post) (hops : X.Does F.next ops) : ∃ b' l' I' post' vals',
      (c F).2.At v b' l' I' post' ∧ (X.fr.within (c F).2).Gets X.D X.J X.hw X.update us b
        (((c F).2.body b).drop l.length) vals b' (I' :: post') vals' ∧ SameOld F.next vals vals' ∧
          Q (c F).1 (c F).2 vals' := by
  obtain ⟨vals', ⟨b₁, l₁, b', l', f, hstretch⟩, -, hQ⟩ := h hF ⟨b, l, I, post, hat⟩ hops
  obtain ⟨K, post₁, hat₁, -⟩ := hstretch.spot
  obtain ⟨rfl, rfl, -, -⟩ := hat.unique hF hat₁
  obtain ⟨I', post', hat', hgets⟩ := hstretch.runs
  exact ⟨b', l', I', post', vals', hat', hgets, hstretch.same, hQ⟩

/-! ## Operands -/

section

variable {W : Weaver} (hX : X.Reads W)

include hX

theorem Reads.has_const (c : Constant) : X.Has F vals (W.const c) (c.datum X.addr) :=
  ⟨trivial, hX.const c⟩

theorem Reads.has_getInt {width m : ℕ} (hm : m < 2 ^ width) : X.Has F vals (W.getInt width m) (.int m) := by
  have hmod : ((m : ℤ) % 2 ^ width).toNat = m := by
    have hcast : ((m : ℤ) % 2 ^ width) = ((m % 2 ^ width : ℕ) : ℤ) := by push_cast; rfl
    rw [hcast, Int.toNat_natCast, Nat.mod_eq_of_lt hm]
  have hconst : X.Has F vals (W.getInt width m) (Constant.datum X.addr (.int width m)) :=
    hX.has_const (.int width m)
  rwa [Constant.datum, hmod] at hconst

theorem Reads.has_zero (width : ℕ) : X.Has F vals (W.getInt width 0) (.int 0) :=
  hX.has_getInt (m := 0) (Nat.two_pow_pos width)

theorem Reads.has_getTrue : X.Has F vals W.getTrue (.ofBool true) := hX.has_getInt (m := 1) (by decide)

theorem Reads.has_getFalse : X.Has F vals W.getFalse (.ofBool false) := hX.has_zero 1

end

/-! ## One instruction -/

theorem DoesOne.exec {id : ℕ} {o : Operator} (h : X.DoesOne id o) (ho : o.Computed = true)
    (vs : List (Datum α)) (h₀ : List E) :
    (X.J.exec X.fr.code.name id X.hw vs h₀).1.filterMap X.update = o.updates vs ∧
      (X.J.exec X.fr.code.name id X.hw vs h₀).2 = o.eval X.mem vs := by
  cases o with
  | sreg | condBr | br | phi => cases ho
  | _ => exact h vs h₀

theorem plain_of_mayCompute {op : Opcode} (h : op.mayCompute = true) :
    op.plain = true ∧ ∀ id ty args, (Instr.mk id op ty args []).sreg = none := by
  cases op with
  | phi | terminator => cases h
  | call m name =>
      cases m with
      | none => cases h
      | some m =>
          cases name with
          | none => exact ⟨rfl, fun _ _ _ => rfl⟩
          | some name => exact ⟨rfl, fun _ _ _ => Option.isNone_iff_eq_none.1 h⟩
  | _ => exact ⟨rfl, fun _ _ _ => rfl⟩

/-- What an instruction that calls nothing of the module gives. -/
theorem value_plain {op : Opcode} {ty : Ty} {args : List Operand} {id : ℕ} (hop : op.plain = true)
    (hsreg : (Instr.mk id op ty args []).sreg = none) (call : Code → List (Datum α) → List E →
      Observed (Datum α) E) (vs : List (Datum α)) (h : List E) :
    X.fr.value X.D X.J X.hw call ⟨id, op, ty, args, []⟩ vs h
      = (some (X.J.exec X.fr.code.name id X.hw vs h).2,
        h ++ (X.J.exec X.fr.code.name id X.hw vs h).1) := by
  have hcallee : X.J.callee X.D ⟨id, op, ty, args, []⟩ vs = none := by
    unfold Meaning.callee
    split
    · next hcall => rw [show op = _ from hcall] at hop; cases hop
    · next hcall => rw [show op = _ from hcall] at hop; cases hop
    · rfl
  simp only [Frame.value, hsreg, hcallee]

/-- What is known when the instruction with the function's next id has given a value. -/
theorem Knows.insertAt {b : ℕ} {l : List Instr} {I : Instr} (hs : X.Knows F vals known) :
    X.Knows (F.insertAt b l.length [I]) (Function.update vals F.next d)
      ((.inst F.next, d) :: known) := by
  refine Knows.cons (hs.mono (Nat.le_succ _) fun w hw => ?_) ⟨Nat.lt_succ_self _, ?_⟩
  · exact Function.update_of_ne (Nat.ne_of_lt hw) ..
  · exact Function.update_self ..

theorem map_eval_eq {args : List Operand} {ds : List (Datum α)} (h : List.Forall₂ (X.Has F vals) args ds) :
    args.map (X.fr.eval X.J vals) = ds := by
  induction h with
  | nil => rfl
  | cons hx _ ih => rw [List.map_cons, hx.eval_eq, ih]

/-- A new instruction that gives `d`, whatever the accesses were. -/
theorem Computes.of_value {op : Opcode} {ty : Ty} {args : List Operand} {o : Operator}
    (hs : X.Knows F vals known) (hop : op.plain = true)
    (hval : X.DoesOne F.next o → ∀ h, ∃ h', h'.filterMap X.update = h.filterMap X.update ++ us ∧ ∀ n,
      X.fr.value X.D X.J X.hw (X.J.call X.D X.hw n) ⟨F.next, op, ty, args, []⟩
        (args.map (X.fr.eval X.J vals)) h = (some d, h')) :
    X.Computes [o] (SchedPass.create v op ty args) v F vals us fun x F' vals' =>
      X.Knows F' vals' ((x, d) :: known) := by
  rintro hF ⟨b, l, I, post, hat⟩ hops
  have hinsert : (SchedPass.create v op ty args F).2
      = F.insertAt b l.length [⟨F.next, op, ty, args, []⟩] := insertBefore_eq hF hat _
  have hstretch := Stretch.insertAt hF hat (fresh_singleton hop ty args) (hval hops.1)
  rw [hinsert]
  exact ⟨_, ⟨b, l, b, _, _, hstretch⟩, rfl, hs.insertAt⟩

/-- **A new instruction gives what its operator makes of the operands.** -/
theorem Computes.create {op : Opcode} {ty : Ty} {args : List Operand} {o : Operator}
    {ds : List (Datum α)} (hs : X.Knows F vals known) (hargs : List.Forall₂ (X.Has F vals) args ds)
    (hd : o.eval X.mem ds = d) (hop : (op.mayCompute && o.Computed) = true) :
    X.Computes [o] (SchedPass.create v op ty args) v F vals (o.updates ds) fun x F' vals' =>
      X.Knows F' vals' ((x, d) :: known) := by
  obtain ⟨hop, ho⟩ := Bool.and_eq_true_iff.1 hop
  obtain ⟨hplain, hsreg⟩ := plain_of_mayCompute hop
  refine .of_value hs hplain fun hone h => ⟨h ++ (X.J.exec X.fr.code.name F.next X.hw ds h).1, ?_,
    fun n => ?_⟩
  · rw [List.filterMap_append, (hone.exec ho ds h).1]
  · rw [map_eval_eq hargs, value_plain hplain (hsreg ..), (hone.exec ho ds h).2, hd]

/-- A read of `nctaid`. -/
theorem Computes.nctaid {W : Weaver} (hX : X.Reads W) (hs : X.Knows F vals known) (axis : Axis) :
    X.Computes [.sreg] (Weaver.readSReg v "nctaid" axis) v F vals [] fun x F' vals' =>
      X.Knows F' vals' ((x, .int (X.hw.nctaid.get axis)) :: known) := by
  refine .of_value hs rfl fun _ h => ⟨h, (List.append_nil _).symm, fun n => ?_⟩
  cases axis <;> exact congrArg (fun d => (some d, h)) (hX.ofNat _)

/-- A read of `ctaid`. -/
theorem Computes.ctaid {W : Weaver} (hX : X.Reads W) (hs : X.Knows F vals known) (axis : Axis) :
    X.Computes [.sreg] (Weaver.readSReg v "ctaid" axis) v F vals [] fun x F' vals' =>
      X.Knows F' vals' ((x, .int (X.fr.ctaid.get axis)) :: known) := by
  refine .of_value hs rfl fun _ h => ⟨h, (List.append_nil _).symm, fun n => ?_⟩
  cases axis <;> exact congrArg (fun d => (some d, h)) (hX.ofNat _)

/-! ## Code under a condition -/

/-- `SplitBlockAndInsertIfThen`, code in the new block, and what is done with the blocks then. -/
def underIf (v : ℕ) (Cond : Operand) (thenCode : ℕ → Emit β) (k : β → ℕ → ℕ → ℕ → Emit γ) : Emit γ := do
  let Head ← getParent v
  let ThenTerm ← SplitBlockAndInsertIfThen Cond v
  let x ← thenCode ThenTerm
  let Tail ← getParent v
  let Then ← getParent ThenTerm
  k x Head Tail Then

theorem underIf_computes {Cond : Operand} {cond : Bool} {thenCode : ℕ → Emit β}
    {k : β → ℕ → ℕ → ℕ → Emit γ} (hs : X.Knows F vals known) (hCond : X.Has F vals Cond (.ofBool cond))
    (hthen : ∀ F₁, X.Knows F₁ vals known →
      X.Computes ops (thenCode (F.next + 1)) (F.next + 1) F₁ vals us Q)
    (hk : ∀ x F₂ vals₂ Head Tail Then, Q x F₂ vals₂ → X.Knows F₂ vals known → Then ≠ Head →
      Tail ∈ F₂.blocks → (∀ K ∈ F₂.body Tail, K.op ≠ .phi) → F₂.WellFormed → ∃ phis,
        F₂.Joined (k x Head Tail Then F₂).2 Tail phis ∧
          (∀ P ∈ phis, ∀ p ∈ P.incoming, p.1 = Then ∨ p.1 = Head) ∧
            (k x Head Tail Then F₂).2.next = F₂.next + n ∧
              Q' (k x Head Tail Then F₂).1 (k x Head Tail Then F₂).2
                (if cond then X.fr.enter X.J Then phis vals₂ else X.fr.enter X.J Head phis vals)) :
    X.Computes (Operator.under ops n) (underIf v Cond thenCode k) v F vals
      (if cond then us else []) Q' := by
  rintro hF ⟨b, l, I, post, hat⟩ ⟨hcondBr, hbr, hops⟩
  have hF₁ : (F.splitIf b l.length Cond []).WellFormed := hF.splitIf (hat.point hF) fresh_nil
  have hspot : (F.splitIf b l.length Cond []).At (F.next + 1) F.thenBlock []
      ((F.thenBr []).rename (F.tailName b)) [] := ⟨splitIf_body_then, rfl, nofun⟩
  have hs₁ : X.Knows (F.splitIf b l.length Cond []) vals known :=
    hs.mono (Nat.le_add_right F.next 2) fun _ _ => rfl
  obtain ⟨vals₂, ⟨b₁, l₁, t, lt, f₂, hstretch⟩, hnext, hQ⟩ :=
    hthen _ hs₁ hF₁ ⟨_, _, _, _, hspot⟩ (X.does_append.1 hops).1
  obtain ⟨I', post', hat', hat₂⟩ := hstretch.spot
  obtain ⟨rfl, rfl, -, -⟩ := hat'.unique hF₁ hspot
  -- where the instruction is when the code is there
  have hlaid := hstretch.toLaid.underIf hF hat (.nil hstretch.wellFormed)
  obtain ⟨J, rest, hat₀, htail⟩ := hlaid.spot
  have hrun : underIf v Cond thenCode k F
      = k (thenCode (F.next + 1) (F.splitIf b l.length Cond [])).1 b F.tailBlock t
        (thenCode (F.next + 1) (F.splitIf b l.length Cond [])).2 := by
    show k (thenCode (F.next + 1) (F.splitBefore v Cond)).1 ((F.parent v).getD _)
      (((thenCode (F.next + 1) (F.splitBefore v Cond)).2.parent v).getD _)
      (((thenCode (F.next + 1) (F.splitBefore v Cond)).2.parent (F.next + 1)).getD _) _ = _
    rw [splitBefore_eq hF hat, hat.parent_eq hF, htail.parent_eq hstretch.wellFormed,
      hat₂.parent_eq hstretch.wellFormed]
    rfl
  obtain ⟨hnot, -⟩ := hstretch.toLaid.then_notMem
  have hpoint := htail.point hstretch.wellFormed
  have hs₂ : X.Knows (thenCode (F.next + 1) (F.splitIf b l.length Cond [])).2 vals known :=
    hs₁.mono hstretch.next_le fun _ _ => rfl
  obtain ⟨phis, hjoin, hin, hnext', hQ'⟩ := hk _ _ _ b F.tailBlock t hQ hs₂
    (fun heq => hnot (heq ▸ hat.mem_blocks hF)) (htail.mem_blocks hstretch.wellFormed)
    (fun K hK => hpoint.not_phi K (by rwa [hpoint.body_eq] at hK)) hstretch.wellFormed
  rw [hrun]
  refine ⟨_, ⟨b, l, _, _, _, hstretch.underIf hF hat ?_ hbr hjoin hin⟩, ?_, hQ'⟩
  · show X.J.branch X.fr.code.name F.next [X.fr.eval X.J vals Cond] = _
    rw [hCond.eval_eq, Datum.ofBool, hcondBr]
    cases cond <;> rfl
  · rw [hnext', hnext]
    simp [splitIf]
    omega

/-- What a PHI is worth that was put behind code under a condition. -/
theorem phiValue_join {id Then Head : ℕ} {ty : Ty} {y : Operand} (hne : Then ≠ Head)
    (vals : ℕ → Datum α) :
    X.fr.phiValue X.J vals (some Then) ⟨id, .phi, ty, [], [(Then, x), (Head, y)]⟩ = X.fr.eval X.J vals x ∧
      X.fr.phiValue X.J vals (some Head) ⟨id, .phi, ty, [], [(Then, x), (Head, y)]⟩
        = X.fr.eval X.J vals y := by
  simp [Frame.phiValue, hne]

/-- Two such PHIs. -/
theorem enter_join {id Then Head : ℕ} {ty : Ty} {x' y y' : Operand} (hne : Then ≠ Head)
    (vals : ℕ → Datum α) {phis : List Instr}
    (hphis : phis = [⟨id, .phi, ty, [], [(Then, x), (Head, y)]⟩,
      ⟨id + 1, .phi, ty, [], [(Then, x'), (Head, y')]⟩]) :
    (X.fr.enter X.J Then phis vals id = X.fr.eval X.J vals x ∧
        X.fr.enter X.J Then phis vals (id + 1) = X.fr.eval X.J vals x') ∧
      X.fr.enter X.J Head phis vals id = X.fr.eval X.J vals y ∧
        X.fr.enter X.J Head phis vals (id + 1) = X.fr.eval X.J vals y' := by
  subst hphis
  simp [Frame.enter, phiValue_join hne]

theorem mem_join {Then Head : ℕ} {y : Operand} {p : ℕ × Operand} (hp : p ∈ [(Then, x), (Head, y)]) :
    p.1 = Then ∨ p.1 = Head := by
  rcases List.mem_pair.1 hp with rfl | rfl
  · exact Or.inl rfl
  · exact Or.inr rfl

/-- A value of code under a condition, or another one. -/
def joinIf (v : ℕ) (Cond : Operand) (ty : Ty) (thenCode : ℕ → Emit Operand) (other : Operand) :
    Emit Operand :=
  underIf v Cond thenCode fun x Head Tail Then => CreatePHI Tail ty [(Then, x), (Head, other)]

/-- **Code under a condition gives its value where the condition holds, and the other one elsewhere.** -/
theorem joinIf_computes {Cond other : Operand} {cond : Bool} {ty : Ty} {thenCode : ℕ → Emit Operand}
    {e : Datum α} (hs : X.Knows F vals known) (hCond : X.Has F vals Cond (.ofBool cond))
    (hother : X.Has F vals other e)
    (hthen : ∀ F₁, X.Knows F₁ vals known → X.Computes ops (thenCode (F.next + 1)) (F.next + 1) F₁ vals []
      fun x F' vals' => X.Has F' vals' x d) :
    X.Computes (Operator.under ops 1) (joinIf v Cond ty thenCode other) v F vals []
      fun z F' vals' => X.Has F' vals' z (if cond then d else e) := by
  suffices h : X.Computes (Operator.under ops 1) (joinIf v Cond ty thenCode other) v F vals
      (if cond then [] else []) fun z F' vals' => X.Has F' vals' z (if cond then d else e) by
    rwa [ite_self] at h
  refine underIf_computes (hs.cons hother) hCond (fun F₁ hs₁ => hthen F₁ hs₁.tail)
    fun x F₂ vals₂ Head Tail Then hx hs₂ hne hTail hnot hF₂ => ?_
  have hjoin := (Func.Joined.nil hF₂).insertPHI hTail hnot ty [(Then, x), (Head, other)]
  refine ⟨[⟨F₂.next, .phi, ty, [], [(Then, x), (Head, other)]⟩], hjoin, ?_, rfl,
    Nat.lt_succ_self _, ?_⟩
  · exact List.forall_mem_singleton.2 fun p hp => mem_join hp
  have hother₂ := hs₂.head.eval_eq
  cases cond with
  | true =>
      show Function.update vals₂ F₂.next _ F₂.next = _
      rw [Function.update_self, (phiValue_join hne vals₂).1]
      exact hx.eval_eq
  | false =>
      show Function.update vals F₂.next _ F₂.next = _
      rw [Function.update_self, (phiValue_join hne vals).2]
      exact hother₂

/-- Code under a condition that is run for its accesses. -/
theorem whenIf_computes {Cond : Operand} {cond : Bool} {thenCode : ℕ → Emit β}
    (hs : X.Knows F vals known) (hCond : X.Has F vals Cond (.ofBool cond))
    (hthen : ∀ F₁, X.Knows F₁ vals known →
      X.Computes ops (thenCode (F.next + 1)) (F.next + 1) F₁ vals us fun _ _ _ => True) :
    X.Computes (Operator.under ops 0) (SplitBlockAndInsertIfThen Cond v >>= thenCode) v F vals
      (if cond then us else []) fun _ _ _ => True :=
  underIf_computes (k := fun x _ _ _ => Pure.pure x) hs hCond hthen
    fun x F₂ vals₂ Head Tail Then _ _ _ _ _ hF₂ => ⟨[], .nil hF₂, by simp, rfl, trivial⟩

end Machine

end SchedPass
