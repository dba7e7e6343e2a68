import Mathlib.Data.List.Find
import SchedPass.Lib.Observed
import SchedPass.Weave.Exec

set_option autoImplicit false

/-! # Instrumented functions

A function is instrumented when blocks of it have been cut into pieces and new instructions put among
the old ones: each new instruction calls no function of the module, each new branch stays within the
pieces of its block, and no old instruction is touched but for the names of the blocks that its PHIs
come from. Whatever the new instructions compute, access and decide, the old ones do what they did
(`run_instrumented`). -/

namespace SchedPass

open Observed

/-! ## What is new -/

/-- What the new instructions do: their accesses, their values, and the way a branch goes. -/
structure Probes (V E H : Type) where
  exec : String → ℕ → Coords → List V → List (E ⊕ H) → List H × V
  taken : String → ℕ → List V → Bool

/-- The meaning of instrumented code: instructions from `N` on are new. An old one does what it does
    without the accesses of the new ones; a new branch has two ways, or one when it has no condition. -/
def Meaning.instrumented {V E H : Type} (J : Meaning V E) (N : String → ℕ) (X : Probes V E H) :
    Meaning V (E ⊕ H) where
  ofNat := J.ofNat
  undef := J.undef
  const := J.const
  exec name id hw vs h :=
    if id < N name then
      let (new, v) := J.exec name id hw vs (h.filterMap Sum.getLeft?)
      (new.map Sum.inl, v)
    else
      let (new, v) := X.exec name id hw vs h
      (new.map Sum.inr, v)
  branch name id vs :=
    if id < N name then J.branch name id vs
    else if vs.isEmpty || X.taken name id vs then 0
    else 1
  target := J.target

theorem Meaning.branch_instrumented {V E H : Type} (J : Meaning V E) (N : String → ℕ)
    (X : Probes V E H) (name : String) (id : ℕ) (vs : List V) :
    (J.instrumented N X).branch name id vs = if id < N name then J.branch name id vs
      else if vs.isEmpty || X.taken name id vs then 0 else 1 := rfl

/-- The PHIs name blocks as `f` does. -/
def Instr.rename (f : ℕ → ℕ) (I : Instr) : Instr :=
  { I with incoming := I.incoming.map fun p => (f p.1, p.2) }

@[simp] theorem Instr.rename_id (f : ℕ → ℕ) (I : Instr) : (I.rename f).id = I.id := rfl

@[simp] theorem Instr.rename_op (f : ℕ → ℕ) (I : Instr) : (I.rename f).op = I.op := rfl

@[simp] theorem Instr.rename_args (f : ℕ → ℕ) (I : Instr) : (I.rename f).args = I.args := rfl

/-- No call, or a call of an intrinsic or of inline assembly. -/
def Instr.callsNothing (I : Instr) : Bool :=
  match I.op with
  | .call none _ => false
  | _ => true

/-- The instructions below `n`. -/
def oldOnes (n : ℕ) (l : List Instr) : List Instr := l.filter fun I => I.id < n

/-- Where the pieces come from: the block that a block is a piece of, its last piece, the pieces yet to
    come, and the old instructions yet to come from the start of a block on. -/
structure Pieces where
  home : ℕ → ℕ
  last : ℕ → ℕ
  rank : ℕ → ℕ
  rest : ℕ → List Instr

/-- A piece with the old terminator, or with a new one that leads to the pieces behind. -/
inductive Piece (F₀ F : Func) (n : ℕ) (S : Pieces) (b : ℕ) : Prop
  | last (l : List Instr) (T : Instr) (hbody : F.body b = l ++ [T]) (hT : T.op = .terminator)
      (hl : ∀ I ∈ l, I.op ≠ .terminator) (hold : T.id < n)
      (hrest : oldOnes n (F.body b) = (S.rest b).map (Instr.rename S.last))
      (hsucc : F.cfg.succ b = F₀.cfg.succ (S.home b)) (hlast : S.last (S.home b) = b)
  | inner (l old : List Instr) (T : Instr) (hbody : F.body b = l ++ [T]) (hT : T.op = .terminator)
      (hl : ∀ I ∈ l, I.op ≠ .terminator) (hnew : n ≤ T.id)
      (hrest : oldOnes n l = old.map (Instr.rename S.last))
      (hsucc : ∀ c ∈ F.cfg.succ b, c ∈ F.blocks ∧ c ∉ F₀.blocks ∧ S.home c = S.home b ∧
        S.rank c < S.rank b ∧ S.rest b = old ++ S.rest c)
      (hways : (T.args = [] ∧ (F.cfg.succ b).length = 1) ∨
        (T.args.length = 1 ∧ (F.cfg.succ b).length = 2))

/-- `F` is `F₀` with new instructions from `n` on. -/
structure Instruments (F₀ F : Func) (n : ℕ) (S : Pieces) : Prop where
  entry_eq : F.cfg.entry = F₀.cfg.entry
  blocks_subset : F₀.blocks ⊆ F.blocks
  home_eq : ∀ b ∈ F₀.blocks, S.home b = b
  rest_eq : ∀ b ∈ F₀.blocks, S.rest b = F₀.body b
  home_mem : ∀ b ∈ F.blocks, S.home b ∈ F₀.blocks
  suffix : ∀ b ∈ F.blocks, S.rest b <:+ F₀.body (S.home b)
  not_phi : ∀ b ∈ F.blocks, b ∉ F₀.blocks → ∀ I ∈ S.rest b, I.op ≠ .phi
  last_inj : ∀ a ∈ F₀.blocks, ∀ b ∈ F₀.blocks, S.last a = S.last b → a = b
  last_mem : ∀ b ∈ F₀.blocks, S.last b ∈ F.blocks
  piece : ∀ b ∈ F.blocks, Piece F₀ F n S b
  quiet : ∀ b, ∀ I ∈ F.body b, n ≤ I.id → I.callsNothing = true

/-- The ids, the operands and the blocks of a function lie below `n` and in the function. -/
structure Func.Closed (F : Func) (n : ℕ) : Prop where
  entry_mem : F.cfg.entry ∈ F.blocks
  succ_mem : ∀ b ∈ F.blocks, ∀ c ∈ F.cfg.succ b, c ∈ F.blocks
  id_lt : ∀ b, ∀ I ∈ F.body b, I.id < n
  args_lt : ∀ b, ∀ I ∈ F.body b, ∀ x ∈ I.args, x.All (· < n)
  incoming_lt : ∀ b, ∀ I ∈ F.body b, ∀ p ∈ I.incoming, p.1 ∈ F.blocks ∧ p.2.All (· < n)

/-- The code with its function instrumented; no piece has more than `R` behind it. -/
structure Instrumented (N : String → ℕ) (R : ℕ) (P P' : Code) (S : Pieces) : Prop where
  name_eq : P'.name = P.name
  closed : P.func.Closed (N P.name)
  func : Instruments P.func P'.func (N P.name) S
  rank_le : ∀ b, S.rank b ≤ R

def InstrumentsCode (N : String → ℕ) (R : ℕ) (P P' : Code) : Prop := ∃ S, Instrumented N R P P' S

/-! ## Going on from the middle of a block -/

section

variable {V E : Type} (D : String → Option Code) (J : Meaning V E) (hw : Coords)

/-- A call of a device function with fuel `n`. -/
def Meaning.call (n : ℕ) (Q : Code) (as : List V) (h : List E) : Observed V E :=
  run D J hw n (deviceFrame J hw Q as) (fun _ => J.undef) none Q.func.cfg.entry h

/-- The instructions `l` of block `b`, and on from there. -/
def resume (n : ℕ) (fr : Frame V) (vals₀ : ℕ → V) (prev : Option ℕ) (b : ℕ) (l : List Instr)
    (vals : ℕ → V) (h : List E) : Observed V E :=
  match runBlock D J hw (J.call D hw n) fr vals₀ prev b l vals h with
  | (.jump c vals', h') => run D J hw n fr vals' (some b) c h'
  | (.ret v, h') => (some v, h')
  | (.cut, h') => (none, h')

variable {D J hw} {n : ℕ} {fr : Frame V} {vals₀ vals : ℕ → V} {prev : Option ℕ} {b : ℕ} {I : Instr}
  {rest : List Instr} {h : List E}

theorem run_succ : run D J hw (n + 1) fr vals prev b h
    = resume D J hw n fr vals prev b (fr.code.func.body b) vals h := rfl

theorem resume_phi (hop : I.op = .phi) : resume D J hw n fr vals₀ prev b (I :: rest) vals h
    = resume D J hw n fr vals₀ prev b rest
        (Function.update vals I.id (fr.phiValue J vals₀ prev I)) h := by
  rw [resume, runBlock_phi hop, resume]

theorem resume_terminator (hop : I.op = .terminator) :
    resume D J hw n fr vals₀ prev b (I :: rest) vals h =
      match (fr.code.func.cfg.succ b)[J.branch fr.code.name I.id (I.args.map (fr.eval J vals))]? with
      | some c => run D J hw n fr vals (some b) c h
      | none => (some ((I.args.map (fr.eval J vals)).headD J.undef), h) := by
  rw [resume, runBlock_terminator hop, Frame.leave]
  cases (fr.code.func.cfg.succ b)[J.branch fr.code.name I.id (I.args.map (fr.eval J vals))]? <;> rfl

theorem resume_value (hphi : I.op ≠ .phi) (hterm : I.op ≠ .terminator) :
    resume D J hw n fr vals₀ prev b (I :: rest) vals h =
      Observed.andThen (fr.value D J hw (J.call D hw n) I (I.args.map (fr.eval J vals)) h)
        fun v h' => resume D J hw n fr vals₀ prev b rest (Function.update vals I.id v) h' := by
  rw [resume, runBlock_value hphi hterm]
  generalize fr.value D J hw (J.call D hw n) I (I.args.map (fr.eval J vals)) h = r
  obtain ⟨v, h'⟩ := r
  cases v <;> rfl

theorem behind_value {call : Code → List V → List E → Observed V E}
    (hcall : ∀ Q as h, Behind h (call Q as h)) (vs : List V) :
    Behind h (fr.value D J hw call I vs h) := by
  unfold Frame.value
  split
  · exact List.prefix_rfl
  · exact List.prefix_rfl
  · split
    · exact hcall ..
    · exact List.prefix_append ..

theorem behind_resume_of (hrun : ∀ fr vals prev b h, Behind h (run D J hw n fr vals prev b h))
    (l : List Instr) (vals : ℕ → V) (h : List E) :
    Behind h (resume D J hw n fr vals₀ prev b l vals h) := by
  induction l generalizing vals h with
  | nil => exact List.prefix_rfl
  | cons I rest ih =>
      by_cases hphi : I.op = .phi
      · rw [resume_phi hphi]
        exact ih ..
      · by_cases hterm : I.op = .terminator
        · rw [resume_terminator hterm]
          split
          · exact hrun ..
          · exact List.prefix_rfl
        · rw [resume_value hphi hterm]
          exact Behind.andThen (behind_value (fun Q as h => hrun ..) _) fun v h' => ih ..

/-- Accesses are only added. -/
theorem behind_run (n : ℕ) (fr : Frame V) (vals : ℕ → V) (prev : Option ℕ) (b : ℕ) (h : List E) :
    Behind h (run D J hw n fr vals prev b h) := by
  induction n generalizing fr vals prev b h with
  | zero => exact List.prefix_rfl
  | succ n ih => exact behind_resume_of ih ..

theorem behind_resume (n : ℕ) (fr : Frame V) (vals₀ : ℕ → V) (prev : Option ℕ) (b : ℕ)
    (l : List Instr) (vals : ℕ → V) (h : List E) :
    Behind h (resume D J hw n fr vals₀ prev b l vals h) :=
  behind_resume_of (behind_run n) l vals h

end

/-! ## Old instructions under the two meanings -/

section

variable {V E H : Type} {D D' : String → Option Code} {J : Meaning V E} {N : String → ℕ}
  {X : Probes V E H} {hw : Coords} {R : ℕ} {P P' : Code} {ctaid : Dim3} {args : ℕ → V}
  {vals vals' vals₀ vals₀' : ℕ → V} {Rel : Observed V E → Observed V E → Prop}

/-- The old values are the same. -/
def SameOld (n : ℕ) (vals vals' : ℕ → V) : Prop := ∀ v < n, vals' v = vals v

theorem SameOld.update {n : ℕ} (h : SameOld n vals vals') (v : ℕ) (x : V) :
    SameOld n (Function.update vals v x) (Function.update vals' v x) := by
  intro w hw
  by_cases hwv : w = v
  · rw [hwv, Function.update_self, Function.update_self]
  · rw [Function.update_of_ne hwv, Function.update_of_ne hwv, h w hw]

theorem SameOld.update_new {n v : ℕ} (h : SameOld n vals vals') (hv : n ≤ v) (x : V) :
    SameOld n vals (Function.update vals' v x) := by
  intro w hw
  rw [Function.update_of_ne (by omega), h w hw]

theorem eval_instrumented (hname : P'.name = P.name) {x : Operand}
    (hvals : SameOld (N P.name) vals vals') (hx : x.All (· < N P.name)) :
    (Frame.mk P' ctaid args).eval (J.instrumented N X) vals' x
      = (Frame.mk P ctaid args).eval J vals x := by
  cases x with
  | inst v => exact hvals v hx
  | arg n => rfl
  | _ =>
      show J.const P'.name _ = J.const P.name _
      rw [hname]

theorem map_eval_instrumented (hname : P'.name = P.name) {l : List Operand}
    (hvals : SameOld (N P.name) vals vals') (hl : ∀ x ∈ l, x.All (· < N P.name)) :
    l.map ((Frame.mk P' ctaid args).eval (J.instrumented N X) vals')
      = l.map ((Frame.mk P ctaid args).eval J vals) :=
  List.map_congr_left fun x hx => eval_instrumented hname hvals (hl x hx)

/-- A PHI takes the value it took: its predecessors are named by their last pieces. -/
theorem phiValue_instrumented (hname : P'.name = P.name) {f : ℕ → ℕ} {I : Instr}
    (hvals : SameOld (N P.name) vals vals') (hI : ∀ p ∈ I.incoming, p.1 ∈ P.func.blocks ∧
      p.2.All (· < N P.name))
    (hf : ∀ a ∈ P.func.blocks, ∀ b ∈ P.func.blocks, f a = f b → a = b) {prev : Option ℕ}
    (hprev : ∀ q ∈ prev, q ∈ P.func.blocks) :
    (Frame.mk P' ctaid args).phiValue (J.instrumented N X) vals' (prev.map f) (I.rename f)
      = (Frame.mk P ctaid args).phiValue J vals prev I := by
  cases prev with
  | none => rfl
  | some q =>
      have hfind : (I.rename f).incoming.find? (fun p => p.1 == f q)
          = (I.incoming.find? fun p => p.1 == q).map fun p => (f p.1, p.2) := by
        show (I.incoming.map _).find? _ = _
        rw [List.find?_map]
        refine congrArg _ (List.find?_congr fun p hp => ?_)
        have hq := hprev q rfl
        by_cases hpq : p.1 = q
        · simp [hpq]
        · simpa [hpq] using fun h => hpq (hf _ (hI p hp).1 _ hq h)
      unfold Frame.phiValue
      rw [Option.map_some, Option.bind_some, Option.bind_some, hfind]
      cases hp : I.incoming.find? fun p => p.1 == q with
      | none => rfl
      | some p =>
          exact eval_instrumented hname hvals (hI p (List.mem_of_find?_eq_some hp)).2

/-- An old instruction calls what it called, instrumented. -/
theorem callee_instrumented (hD : ∀ g, Option.Rel (InstrumentsCode N R) (D g) (D' g)) (I : Instr)
    (f : ℕ → ℕ) (vs : List V) : Option.Rel (InstrumentsCode N R) (J.callee D I vs)
      ((J.instrumented N X).callee D' (I.rename f) vs) := by
  unfold Meaning.callee
  rw [Instr.rename_op]
  split
  · exact hD _
  · show Option.Rel _ ((J.target vs).bind D) ((J.target vs).bind D')
    cases J.target vs with
    | none => exact .none
    | some g => exact hD g
  · exact .none

theorem value_instrumented (hRel : Comparison (D := E ⊕ H) Sum.getLeft? Rel) (hname : P'.name = P.name)
    {call : Code → List V → List E → Observed V E}
    {call' : Code → List V → List (E ⊕ H) → Observed V (E ⊕ H)}
    (hD : ∀ g, Option.Rel (InstrumentsCode N R) (D g) (D' g))
    (hcall : ∀ Q Q', InstrumentsCode N R Q Q' → ∀ as h,
      Rel (call Q as (h.filterMap Sum.getLeft?)) ((call' Q' as h).erase Sum.getLeft?))
    {I : Instr} (hI : I.id < N P.name) (f : ℕ → ℕ) (vs : List V) (h : List (E ⊕ H)) :
    Rel ((Frame.mk P ctaid args).value D J hw call I vs (h.filterMap Sum.getLeft?))
      (Observed.erase Sum.getLeft? ((Frame.mk P' ctaid args).value D' (J.instrumented N X) hw call'
        (I.rename f) vs h)) := by
  have hsreg : (I.rename f).sreg = I.sreg := rfl
  unfold Frame.value
  rw [hsreg]
  cases I.sreg with
  | some r => cases r <;> exact hRel.refl _
  | none =>
      have hcallee := callee_instrumented (X := X) (J := J) hD I f vs
      revert hcallee
      cases J.callee D I vs with
      | some Q =>
          intro hcallee
          cases hQ' : (J.instrumented N X).callee D' (I.rename f) vs with
          | none => rw [hQ'] at hcallee; cases hcallee
          | some Q' =>
              rw [hQ'] at hcallee
              cases hcallee with
              | some hQ => exact hcall Q Q' hQ vs h
      | none =>
          intro hcallee
          cases hQ' : (J.instrumented N X).callee D' (I.rename f) vs with
          | some Q' => rw [hQ'] at hcallee; cases hcallee
          | none =>
              have hexec : (J.instrumented N X).exec P'.name I.id hw vs h
                  = ((J.exec P.name I.id hw vs (h.filterMap Sum.getLeft?)).1.map Sum.inl,
                    (J.exec P.name I.id hw vs (h.filterMap Sum.getLeft?)).2) := by
                simp [Meaning.instrumented, hname, hI]
              have hleft : ∀ l : List E, (l.map (Sum.inl : E → E ⊕ H)).filterMap Sum.getLeft? = l := by
                intro l
                simp [List.filterMap_map, Function.comp_def]
              simp only [Instr.rename_id, hexec, Observed.erase, List.filterMap_append, hleft]
              exact hRel.refl _

/-- A new instruction has a value, and no old access. -/
theorem value_new (D' : String → Option Code) (J : Meaning V E) (X : Probes V E H) (hw : Coords)
    (call' : Code → List V → List (E ⊕ H) → Observed V (E ⊕ H)) (fr : Frame V) {I : Instr}
    (hI : N fr.code.name ≤ I.id) (hquiet : I.callsNothing = true) (vs : List V)
    (h : List (E ⊕ H)) :
    ∃ v new, fr.value D' (J.instrumented N X) hw call' I vs h = (some v, h ++ new) ∧
      new.filterMap Sum.getLeft? = [] := by
  have hcallee : (J.instrumented N X).callee D' I vs = none := by
    unfold Meaning.callee
    unfold Instr.callsNothing at hquiet
    split
    · next g hop => rw [hop] at hquiet; cases hquiet
    · next hop => rw [hop] at hquiet; cases hquiet
    · rfl
  unfold Frame.value
  cases I.sreg with
  | some r => cases r <;> exact ⟨_, [], by rw [List.append_nil], rfl⟩
  | none =>
      simp only [hcallee]
      refine ⟨_, _, rfl, ?_⟩
      simp [Meaning.instrumented, not_lt.2 hI, List.filterMap_map, Function.comp_def]

/-! ## One piece -/

/-- **Up to the terminator**: if what follows compares, so does what follows behind old and new
    instructions. -/
theorem resume_walk (hRel : Comparison (D := E ⊕ H) Sum.getLeft? Rel) (hname : P'.name = P.name)
    (hD : ∀ g, Option.Rel (InstrumentsCode N R) (D g) (D' g)) {n m : ℕ}
    (hcall : ∀ Q Q', InstrumentsCode N R Q Q' → ∀ as h, Rel (J.call D hw n Q as
      (h.filterMap Sum.getLeft?)) (((J.instrumented N X).call D' hw m Q' as h).erase Sum.getLeft?))
    {f : ℕ → ℕ} {prev prev' : Option ℕ} {b b' : ℕ} {rest tl l old : List Instr}
    (hold : oldOnes (N P.name) l = old.map (Instr.rename f)) (hl : ∀ I ∈ l, I.op ≠ .terminator)
    (hquiet : ∀ I ∈ l, N P.name ≤ I.id → I.callsNothing = true)
    (hargs : ∀ I ∈ old, ∀ x ∈ I.args, x.All (· < N P.name))
    (hphi : ∀ I ∈ old, I.op = .phi →
      (Frame.mk P' ctaid args).phiValue (J.instrumented N X) vals₀' prev' (I.rename f)
        = (Frame.mk P ctaid args).phiValue J vals₀ prev I)
    (htail : ∀ vals vals' h, SameOld (N P.name) vals vals' →
      Rel (resume D J hw n ⟨P, ctaid, args⟩ vals₀ prev b rest vals (h.filterMap Sum.getLeft?))
        ((resume D' (J.instrumented N X) hw m ⟨P', ctaid, args⟩ vals₀' prev' b' tl vals' h).erase
          Sum.getLeft?)) (vals vals' : ℕ → V) (h : List (E ⊕ H))
    (hvals : SameOld (N P.name) vals vals') :
    Rel (resume D J hw n ⟨P, ctaid, args⟩ vals₀ prev b (old ++ rest) vals
        (h.filterMap Sum.getLeft?))
      ((resume D' (J.instrumented N X) hw m ⟨P', ctaid, args⟩ vals₀' prev' b' (l ++ tl) vals'
        h).erase Sum.getLeft?) := by
  induction l generalizing old vals vals' h with
  | nil =>
      obtain rfl : old = [] := List.map_eq_nil_iff.1 hold.symm
      exact htail _ _ _ hvals
  | cons I l ih =>
      have hl' : ∀ K ∈ l, K.op ≠ .terminator := fun K hK => hl K (List.mem_cons_of_mem I hK)
      have hquiet' : ∀ K ∈ l, N P.name ≤ K.id → K.callsNothing = true :=
        fun K hK => hquiet K (List.mem_cons_of_mem I hK)
      have hterm := hl I (List.mem_cons_self ..)
      by_cases hid : I.id < N P.name
      · -- an old instruction: both sides execute it
        obtain ⟨I₀, old, rfl, rfl, hrest⟩ : ∃ I₀ old', old = I₀ :: old' ∧ I = I₀.rename f ∧
            oldOnes (N P.name) l = old'.map (Instr.rename f) := by
          rw [oldOnes, List.filter_cons_of_pos (by simpa using hid)] at hold
          obtain ⟨I₀, old', rfl, hI, hrest⟩ := List.map_eq_cons_iff.1 hold.symm
          exact ⟨I₀, old', rfl, hI.symm, hrest.symm⟩
        have hstep := fun vals vals' h => ih hrest hl' hquiet'
          (fun K hK => hargs K (List.mem_cons_of_mem I₀ hK))
          (fun K hK => hphi K (List.mem_cons_of_mem I₀ hK)) vals vals' h
        by_cases hop : I₀.op = .phi
        · rw [List.cons_append, List.cons_append, resume_phi hop, resume_phi (I := I₀.rename f) hop,
            hphi I₀ (List.mem_cons_self ..) hop]
          exact hstep _ _ h (hvals.update _ _)
        · rw [List.cons_append, List.cons_append, resume_value hop hterm,
            resume_value (I := I₀.rename f) hop hterm, Instr.rename_args,
            map_eval_instrumented hname hvals (hargs I₀ (List.mem_cons_self ..))]
          refine hRel.andThen (value_instrumented hRel hname hD hcall hid f _ h)
            (fun v h => hstep _ _ h (hvals.update _ _)) (fun v h => ?_) fun v h => ?_
          · exact behind_resume ..
          · exact behind_resume ..
      · -- a new one: only the instrumented side does
        have hnew : N P.name ≤ I.id := not_lt.1 hid
        rw [oldOnes, List.filter_cons_of_neg (by simpa using hid)] at hold
        have hstep := ih hold hl' hquiet' hargs hphi vals
        by_cases hop : I.op = .phi
        · rw [List.cons_append, resume_phi hop]
          exact hstep _ h (hvals.update_new hnew _)
        · obtain ⟨v, new, hvalue, hnone⟩ := value_new D' J X hw ((J.instrumented N X).call D' hw m)
            ⟨P', ctaid, args⟩ (N := N) (by rwa [hname]) (hquiet I (List.mem_cons_self ..) hnew)
            (I.args.map ((Frame.mk P' ctaid args).eval (J.instrumented N X) vals')) h
          rw [List.cons_append, resume_value hop hterm, hvalue, Observed.andThen_some]
          have := hstep (Function.update vals' I.id v) (h ++ new) (hvals.update_new hnew _)
          rwa [List.filterMap_append, hnone, List.append_nil] at this

/-- An old terminator goes where it went. -/
theorem resume_old_terminator (hRel : Comparison (D := E ⊕ H) Sum.getLeft? Rel)
    (hname : P'.name = P.name) {n m : ℕ} {f : ℕ → ℕ} {prev prev' : Option ℕ} {b b' : ℕ} {T : Instr}
    (hT : T.op = .terminator) (hid : T.id < N P.name) (hargs : ∀ x ∈ T.args, x.All (· < N P.name))
    (hsucc : P'.func.cfg.succ b' = P.func.cfg.succ b)
    (hjump : ∀ c ∈ P.func.cfg.succ b, ∀ vals vals' h, SameOld (N P.name) vals vals' →
      Rel (run D J hw n ⟨P, ctaid, args⟩ vals (some b) c (h.filterMap Sum.getLeft?))
        (Observed.erase Sum.getLeft? (run D' (J.instrumented N X) hw m ⟨P', ctaid, args⟩ vals'
          (some b') c h))) (h : List (E ⊕ H)) (hvals : SameOld (N P.name) vals vals') :
    Rel (resume D J hw n ⟨P, ctaid, args⟩ vals₀ prev b [T] vals (h.filterMap Sum.getLeft?))
      ((resume D' (J.instrumented N X) hw m ⟨P', ctaid, args⟩ vals₀' prev' b' [T.rename f] vals'
        h).erase Sum.getLeft?) := by
  have hbranch : ∀ vs, (J.instrumented N X).branch P'.name T.id vs = J.branch P.name T.id vs := by
    intro vs
    rw [Meaning.branch_instrumented, hname, if_pos hid]
  rw [resume_terminator hT, resume_terminator (I := T.rename f) hT, Instr.rename_args,
    map_eval_instrumented hname hvals hargs]
  simp only [Instr.rename_id, hbranch, hsucc]
  cases hc : (P.func.cfg.succ b)[J.branch P.name T.id
      (T.args.map ((Frame.mk P ctaid args).eval J vals))]? with
  | none => exact hRel.refl _
  | some c => exact hjump c (List.mem_of_getElem? hc) _ _ _ hvals

/-- A new branch leads to one of the pieces behind. -/
theorem resume_new_terminator (D' : String → Option Code) (J : Meaning V E) (X : Probes V E H)
    (hw : Coords) (fr : Frame V) (m : ℕ) (vals₀ vals : ℕ → V) (prev : Option ℕ) {b : ℕ} {T : Instr}
    (hT : T.op = .terminator) (hnew : N fr.code.name ≤ T.id)
    (hways : (T.args = [] ∧ (fr.code.func.cfg.succ b).length = 1) ∨
      (T.args.length = 1 ∧ (fr.code.func.cfg.succ b).length = 2)) (h : List (E ⊕ H)) :
    ∃ c ∈ fr.code.func.cfg.succ b,
      resume D' (J.instrumented N X) hw m fr vals₀ prev b [T] vals h
        = run D' (J.instrumented N X) hw m fr vals (some b) c h := by
  have hlt : (J.instrumented N X).branch fr.code.name T.id
      (T.args.map (fr.eval (J.instrumented N X) vals)) < (fr.code.func.cfg.succ b).length := by
    rw [Meaning.branch_instrumented, if_neg (not_lt.2 hnew)]
    rcases hways with ⟨hargs, hlen⟩ | ⟨-, hlen⟩
    · simp [hargs, hlen]
    · rw [hlen]
      split <;> decide
  refine ⟨_, List.getElem_mem hlt, ?_⟩
  rw [resume_terminator hT, List.getElem?_eq_getElem hlt]

/-- **One piece**: calls, jumps to other blocks and the pieces behind compare, so the piece does. -/
theorem resume_piece (hRel : Comparison (D := E ⊕ H) Sum.getLeft? Rel) {S : Pieces}
    (hS : Instrumented N R P P' S) (hD : ∀ g, Option.Rel (InstrumentsCode N R) (D g) (D' g))
    {n m : ℕ} (hcall : ∀ Q Q', InstrumentsCode N R Q Q' → ∀ as h, Rel (J.call D hw n Q as
      (h.filterMap Sum.getLeft?)) (((J.instrumented N X).call D' hw m Q' as h).erase Sum.getLeft?))
    {prev prev' : Option ℕ} {b : ℕ} (hb : b ∈ P'.func.blocks)
    (hentered : b ∈ P.func.blocks → SameOld (N P.name) vals₀ vals₀' ∧ prev' = prev.map S.last ∧
      ∀ q ∈ prev, q ∈ P.func.blocks)
    (hjump : ∀ c ∈ P.func.cfg.succ (S.home b), ∀ vals vals' h, SameOld (N P.name) vals vals' →
      Rel (run D J hw n ⟨P, ctaid, args⟩ vals (some (S.home b)) c (h.filterMap Sum.getLeft?))
        (Observed.erase Sum.getLeft? (run D' (J.instrumented N X) hw m ⟨P', ctaid, args⟩ vals'
          (some (S.last (S.home b))) c h)))
    (hinner : ∀ c ∈ P'.func.blocks, c ∉ P.func.blocks → S.home c = S.home b → S.rank c < S.rank b →
      ∀ vals vals' h, SameOld (N P.name) vals vals' →
        Rel (resume D J hw n ⟨P, ctaid, args⟩ vals₀ prev (S.home b) (S.rest c) vals
            (h.filterMap Sum.getLeft?))
          (Observed.erase Sum.getLeft? (run D' (J.instrumented N X) hw m ⟨P', ctaid, args⟩ vals'
            (some b) c h)))
    (vals vals' : ℕ → V) (h : List (E ⊕ H)) (hvals : SameOld (N P.name) vals vals') :
    Rel (resume D J hw n ⟨P, ctaid, args⟩ vals₀ prev (S.home b) (S.rest b) vals
        (h.filterMap Sum.getLeft?))
      ((resume D' (J.instrumented N X) hw m ⟨P', ctaid, args⟩ vals₀' prev' b (P'.func.body b) vals'
        h).erase Sum.getLeft?) := by
  obtain ⟨hname, hclosed, hS, -⟩ := hS
  have hbody : ∀ I ∈ S.rest b, I ∈ P.func.body (S.home b) := fun I hI => (hS.suffix b hb).subset hI
  have hargs : ∀ I ∈ S.rest b, ∀ x ∈ I.args, x.All (· < N P.name) :=
    fun I hI => hclosed.args_lt _ I (hbody I hI)
  have hphi : ∀ I ∈ S.rest b, I.op = .phi →
      (Frame.mk P' ctaid args).phiValue (J.instrumented N X) vals₀' prev' (I.rename S.last)
        = (Frame.mk P ctaid args).phiValue J vals₀ prev I := by
    intro I hI hop
    have hmem : b ∈ P.func.blocks := by
      by_contra hnot
      exact hS.not_phi b hb hnot I hI hop
    obtain ⟨hvals₀, rfl, hprev⟩ := hentered hmem
    exact phiValue_instrumented hname hvals₀ (hclosed.incoming_lt _ I (hbody I hI)) hS.last_inj hprev
  have hquiet : ∀ I ∈ P'.func.body b, N P.name ≤ I.id → I.callsNothing = true := hS.quiet b
  cases hS.piece b hb with
  | last l T hpiece hT hl hold hrest hsucc hlast =>
      have hT' : oldOnes (N P.name) [T] = [T] := List.filter_cons_of_pos (by simpa using hold)
      rw [hpiece, oldOnes, List.filter_append, ← oldOnes, ← oldOnes, hT'] at hrest
      obtain ⟨old, post, hsplit, hold', hpost⟩ := List.map_eq_append_iff.1 hrest.symm
      obtain ⟨T₀, rfl, rfl⟩ := List.map_eq_singleton_iff.1 hpost
      have hsub : old ⊆ S.rest b := hsplit ▸ List.subset_append_left ..
      have hT₀ : T₀ ∈ S.rest b := hsplit ▸ List.mem_append_right _ (List.mem_singleton_self _)
      rw [hpiece] at hquiet ⊢
      rw [hsplit]
      refine resume_walk hRel hname hD hcall hold'.symm hl
        (fun I hI => hquiet I (List.mem_append_left _ hI)) (fun I hI => hargs I (hsub hI))
        (fun I hI => hphi I (hsub hI)) ?_ vals vals' h hvals
      refine fun vals vals' h hvals => resume_old_terminator hRel hname (T := T₀) hT hold
        (hargs T₀ hT₀) hsucc ?_ h hvals
      simpa only [hlast] using hjump
  | inner l old T hpiece hT hl hnew hrest hsucc hways =>
      obtain ⟨c₀, hc₀⟩ : ∃ c, c ∈ P'.func.cfg.succ b := by
        refine List.exists_mem_of_length_pos ?_
        rcases hways with h | h <;> omega
      have hsplit := (hsucc c₀ hc₀).2.2.2.2
      have hsub : old ⊆ S.rest b := hsplit ▸ List.subset_append_left ..
      rw [hpiece] at hquiet ⊢
      rw [hsplit]
      refine resume_walk hRel hname hD hcall hrest hl
        (fun I hI => hquiet I (List.mem_append_left _ hI)) (fun I hI => hargs I (hsub hI))
        (fun I hI => hphi I (hsub hI)) ?_ vals vals' h hvals
      intro vals vals' h hvals
      obtain ⟨c, hc, hrun⟩ := resume_new_terminator D' J X hw ⟨P', ctaid, args⟩ m vals₀' vals' prev'
        hT (by rwa [hname]) hways h
      obtain ⟨hmem, hnot, hhome, hrank, hrestc⟩ := hsucc c hc
      have hsame : S.rest c₀ = S.rest c := List.append_cancel_left (hsplit.symm.trans hrestc)
      rw [hrun, hsame]
      exact hinner c hmem hnot hhome hrank vals vals' h hvals

end

/-! ## Whole runs -/

section

variable {V E H : Type} (D D' : String → Option Code) (J : Meaning V E) (N : String → ℕ)
  (X : Probes V E H) (hw : Coords) (R : ℕ) (Rel : Observed V E → Observed V E → Prop)

/-- Runs of code with fuel `n` and of its instrumented code with fuel `m` compare. -/
def RunsCompare (n m : ℕ) : Prop :=
  ∀ P P' S, Instrumented N R P P' S → ∀ ctaid args prev, (∀ q ∈ prev, q ∈ P.func.blocks) →
    ∀ b ∈ P.func.blocks, ∀ vals vals' h, SameOld (N P.name) vals vals' →
      Rel (run D J hw n ⟨P, ctaid, args⟩ vals prev b (h.filterMap Sum.getLeft?))
        (Observed.erase Sum.getLeft? (run D' (J.instrumented N X) hw m ⟨P', ctaid, args⟩ vals'
          (prev.map S.last) b h))

/-- So does going on from a piece. -/
def PiecesCompare (n m : ℕ) (P P' : Code) (S : Pieces) (b : ℕ) : Prop :=
  ∀ ctaid args vals₀ prev prev', (b ∈ P.func.blocks → prev' = prev.map S.last ∧
      ∀ q ∈ prev, q ∈ P.func.blocks) →
    ∀ vals vals' h, (b ∈ P.func.blocks → SameOld (N P.name) vals₀ vals') →
      SameOld (N P.name) vals vals' →
      Rel (resume D J hw n ⟨P, ctaid, args⟩ vals₀ prev (S.home b) (S.rest b) vals
          (h.filterMap Sum.getLeft?))
        (Observed.erase Sum.getLeft? (run D' (J.instrumented N X) hw m ⟨P', ctaid, args⟩ vals' prev'
          b h))

variable {D D' J N X hw R Rel} {n m : ℕ}

theorem RunsCompare.call (h : RunsCompare D D' J N X hw R Rel n m) {Q Q' : Code}
    (hQ : InstrumentsCode N R Q Q') (as : List V) (l : List (E ⊕ H)) :
    Rel (J.call D hw n Q as (l.filterMap Sum.getLeft?))
      (((J.instrumented N X).call D' hw m Q' as l).erase Sum.getLeft?) := by
  obtain ⟨S, hS⟩ := hQ
  have hrun := h Q Q' S hS hw.ctaid (fun k => as.getD k J.undef) none (by simp) Q.func.cfg.entry
    hS.closed.entry_mem (fun _ => J.undef) (fun _ => J.undef) l fun _ _ => rfl
  rw [← hS.func.entry_eq] at hrun
  rw [Meaning.call, ← hS.func.entry_eq]
  exact hrun

/-- **From the runs with less fuel and the pieces behind to the piece.** -/
theorem PiecesCompare.succ (hRel : Comparison (D := E ⊕ H) Sum.getLeft? Rel)
    (hD : ∀ g, Option.Rel (InstrumentsCode N R) (D g) (D' g))
    (hruns : RunsCompare D D' J N X hw R Rel n m) {P P' : Code} {S : Pieces}
    (hS : Instrumented N R P P' S) {b : ℕ} (hb : b ∈ P'.func.blocks)
    (hinner : ∀ c ∈ P'.func.blocks, c ∉ P.func.blocks → S.rank c < S.rank b →
      PiecesCompare D D' J N X hw Rel n m P P' S c) :
    PiecesCompare D D' J N X hw Rel n (m + 1) P P' S b := by
  intro ctaid args vals₀ prev prev' hentered vals vals' h hvals₀ hvals
  refine resume_piece hRel hS hD (fun Q Q' hQ as h => hruns.call hQ as h) hb
    (fun hmem => ⟨hvals₀ hmem, hentered hmem⟩) ?_ ?_ vals vals' h hvals
  · intro c hc vals vals' h hvals
    have hhome := hS.func.home_mem b hb
    exact hruns P P' S hS ctaid args (some (S.home b)) (by simpa using hhome) c
      (hS.closed.succ_mem _ hhome c hc) vals vals' h hvals
  · intro c hc hnot hhome hrank vals vals' h hvals
    have := hinner c hc hnot hrank ctaid args vals₀ prev (some b) (fun hmem => absurd hmem hnot)
      vals vals' h (fun hmem => absurd hmem hnot) hvals
    rwa [hhome] at this

/-- Runs of a block that is no piece of another. -/
theorem PiecesCompare.run {P P' : Code} {S : Pieces} (hS : Instrumented N R P P' S) {b : ℕ}
    (hb : b ∈ P.func.blocks) (h : PiecesCompare D D' J N X hw Rel n m P P' S b) (ctaid : Dim3)
    (args : ℕ → V) (prev : Option ℕ) (hprev : ∀ q ∈ prev, q ∈ P.func.blocks) (vals vals' : ℕ → V)
    (l : List (E ⊕ H)) (hvals : SameOld (N P.name) vals vals') :
    Rel (SchedPass.run D J hw (n + 1) ⟨P, ctaid, args⟩ vals prev b (l.filterMap Sum.getLeft?))
      (Observed.erase Sum.getLeft? (SchedPass.run D' (J.instrumented N X) hw m ⟨P', ctaid, args⟩
        vals' (prev.map S.last) b l)) := by
  have hpiece := h ctaid args vals prev (prev.map S.last) (fun _ => ⟨rfl, hprev⟩) vals vals' l
    (fun _ => hvals) hvals
  rwa [hS.func.home_eq b hb, hS.func.rest_eq b hb] at hpiece

variable (hD : ∀ g, Option.Rel (InstrumentsCode N R) (D g) (D' g))

include hD

/-- **With `R + 1` times the fuel, instrumented code does at least what the code does.** -/
theorem runsCompare_le (n : ℕ) {m : ℕ} (hm : n * (R + 1) ≤ m) :
    RunsCompare D D' J N X hw R CutShort n m := by
  induction n generalizing m with
  | zero =>
      intro P P' S hS ctaid args prev hprev b hb vals vals' h hvals
      exact CutShort.of_behind (Behind.erase _ (behind_run ..))
  | succ n ih =>
      intro P P' S hS ctaid args prev hprev b hb vals vals' h hvals
      have hpieces : ∀ r, ∀ b ∈ P'.func.blocks, S.rank b ≤ r → ∀ k, n * (R + 1) + r ≤ k →
          PiecesCompare D D' J N X hw CutShort n (k + 1) P P' S b := by
        intro r
        induction r with
        | zero =>
            intro b hb hr k hk
            exact .succ (comparison_cutShort _) hD (ih hk) hS hb fun c _ _ hc => by omega
        | succ r ihr =>
            intro b hb hr k hk
            refine .succ (comparison_cutShort _) hD (ih (by omega)) hS hb fun c hc _ hrank => ?_
            obtain ⟨k, rfl⟩ : ∃ j, k = j + 1 := ⟨k - 1, by omega⟩
            exact ihr c hc (by omega) k (by omega)
      obtain ⟨k, rfl⟩ : ∃ j, m = j + 1 := ⟨m - 1, by rw [Nat.succ_mul] at hm; omega⟩
      rw [Nat.succ_mul] at hm
      exact (hpieces R b (hS.func.blocks_subset hb) (hS.rank_le b) k (by omega)).run hS hb ctaid args
        prev hprev vals vals' h hvals

/-- **Instrumented code does at most what the code does**, with hardly more fuel. -/
theorem piecesCompare_ge (m : ℕ) {n : ℕ} (hn : m ≤ n) {P P' : Code} {S : Pieces}
    (hS : Instrumented N R P P' S) {b : ℕ} (hb : b ∈ P'.func.blocks) :
    PiecesCompare D D' J N X hw (fun r r' => CutShort r' r) n m P P' S b := by
  induction m generalizing n P P' S b with
  | zero =>
      intro ctaid args vals₀ prev prev' hentered vals vals' h hvals₀ hvals
      exact CutShort.of_behind (behind_resume ..)
  | succ m ih =>
      obtain ⟨k, rfl⟩ : ∃ j, n = j + 1 := ⟨n - 1, by omega⟩
      refine .succ (comparison_cutShort_flip _) hD ?_ hS hb fun c hc _ _ => ih (by omega) hS hc
      intro P P' S hS ctaid args prev hprev b hb vals vals' h hvals
      exact (ih (n := k) (by omega) hS (hS.func.blocks_subset hb)).run hS hb ctaid args prev hprev
        vals vals' h hvals

/-- **Instrumentation is not seen.** A call of instrumented code makes the accesses of a call of the
    code, in the same order, and returns the same value: what either has done after some time, the
    other has done after some time. -/
theorem run_instrumented {P P' : Code} (hP : InstrumentsCode N R P P') (ctaid : Dim3) (args : ℕ → V)
    (n : ℕ) :
    CutShort (runFrame D J hw n ⟨P, ctaid, args⟩) (Observed.erase Sum.getLeft?
        (runFrame D' (J.instrumented N X) hw (n * (R + 1)) ⟨P', ctaid, args⟩)) ∧
      CutShort (Observed.erase Sum.getLeft? (runFrame D' (J.instrumented N X) hw n ⟨P', ctaid, args⟩))
        (runFrame D J hw (n + 1) ⟨P, ctaid, args⟩) := by
  obtain ⟨S, hS⟩ := hP
  have hentry : P'.func.cfg.entry ∈ P.func.blocks := hS.func.entry_eq ▸ hS.closed.entry_mem
  rw [runFrame, runFrame, runFrame, runFrame, ← hS.func.entry_eq]
  constructor
  · have hruns : RunsCompare D D' J N X hw R CutShort n (n * (R + 1)) := runsCompare_le hD n le_rfl
    exact hruns P P' S hS ctaid args none (by simp) _ hentry _ _ [] fun _ _ => rfl
  · have hpieces : PiecesCompare D D' J N X hw (fun r r' => CutShort r' r) n n P P' S
        P'.func.cfg.entry := piecesCompare_ge hD n le_rfl hS (hS.func.blocks_subset hentry)
    exact hpieces.run hS hentry ctaid args none (by simp) _ _ [] fun _ _ => rfl

end

end SchedPass
