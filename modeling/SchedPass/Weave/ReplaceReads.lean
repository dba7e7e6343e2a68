import SchedPass.Weave.Exec

set_option autoImplicit false

/-! # Handing the reads of the block index to another value

`Weaver::run` and `WorkQueueTransform::cloneBody` collect the calls of the `ctaid` intrinsic of the slot
axis, let another value have the uses of each, and erase it. What the rewritten function does under
one block index, the original does when its own reads, and only these, give the value put in their
place (`run_replaceReads`). The simulation rests on SSA validity: where a read's value is available,
the read has been executed. -/

namespace SchedPass

/-! ## The rewrite -/

/-- The values `olds` become `x`. -/
def Operand.subst (y : Operand) (olds : List ℕ) (x : Operand) : Operand :=
  match y with
  | .inst v => if v ∈ olds then x else .inst v
  | y => y

def Instr.substUses (I : Instr) (olds : List ℕ) (x : Operand) : Instr :=
  { I with
    args := I.args.map fun y => y.subst olds x
    incoming := I.incoming.map fun p => (p.1, p.2.subst olds x) }

namespace Func

/-- `CI->replaceAllUsesWith(x)`. -/
def replaceAllUsesWith (F : Func) (v : ℕ) (x : Operand) : Func :=
  { F with body := fun b => (F.body b).map fun I => I.substUses [v] x }

/-- `CI->eraseFromParent()`. -/
def eraseFromParent (F : Func) (v : ℕ) : Func :=
  { F with body := fun b => (F.body b).filter fun I => I.id ≠ v }

/-- The calls of the `ctaid` intrinsic of an axis. -/
def ctaidReads (F : Func) (a : Axis) : List ℕ :=
  (F.instructions.filter fun I => I.sreg = some (.ctaid a)).map Instr.id

/-- Every read of the axis is replaced by `x` and erased, one after the other. -/
def replaceReads (F : Func) (a : Axis) (x : Operand) : Func :=
  (F.ctaidReads a).foldl (fun G v => (G.replaceAllUsesWith v x).eraseFromParent v) F

end Func

/-- The code with its reads of an axis replaced by the value behind its last argument. -/
def Code.replaceReads (P : Code) (a : Axis) : Code :=
  { P with func := P.func.replaceReads a (.arg P.arity) }

/-! ## The rewritten body -/

section

variable {F : Func} {a : Axis} {olds : List ℕ} {n v b : ℕ} {I : Instr}

theorem Operand.subst_nil (x y : Operand) : y.subst [] x = y := by
  cases y <;> rfl

theorem Operand.subst_subst {x : Operand} (hx : ∀ w, x ≠ .inst w) (y : Operand) :
    (y.subst [v] x).subst olds x = y.subst (v :: olds) x := by
  cases y with
  | inst w =>
      by_cases hw : w = v
      · simp only [subst, hw, List.mem_cons, true_or, if_true]
      · simp [subst, hw]
  | _ => rfl

theorem Instr.substUses_nil (x : Operand) (I : Instr) : I.substUses [] x = I := by
  simp [substUses, Operand.subst_nil]

theorem Instr.substUses_substUses {x : Operand} (hx : ∀ w, x ≠ .inst w) (I : Instr) :
    (I.substUses [v] x).substUses olds x = I.substUses (v :: olds) x := by
  simp [substUses, Function.comp_def, Operand.subst_subst hx]

/-- Replaced one after the other or at once. -/
theorem foldl_replace_body {x : Operand} (hx : ∀ w, x ≠ .inst w) (olds : List ℕ) (F : Func) (b : ℕ) :
    (olds.foldl (fun G v => (G.replaceAllUsesWith v x).eraseFromParent v) F).body b
      = ((F.body b).filter fun I => I.id ∉ olds).map fun I => I.substUses olds x := by
  induction olds generalizing F with
  | nil => simp [Instr.substUses_nil]
  | cons v olds ih =>
      rw [List.foldl_cons, ih]
      simp only [Func.eraseFromParent, Func.replaceAllUsesWith, List.filter_map, List.map_map,
        List.filter_filter, Function.comp_def, Instr.substUses_substUses hx]
      refine congrArg _ (List.filter_congr fun I _ => ?_)
      rw [← Bool.decide_and, decide_eq_decide]
      simp [Instr.substUses, and_comm]

theorem Func.replaceReads_cfg (x : Operand) : (F.replaceReads a x).cfg = F.cfg := by
  unfold replaceReads
  generalize F.ctaidReads a = olds
  induction olds generalizing F with
  | nil => rfl
  | cons v olds ih => exact ih

theorem Func.WellFormed.mem_ctaidReads (hF : F.WellFormed) (hI : I ∈ F.body b) :
    I.id ∈ F.ctaidReads a ↔ I.sreg = some (.ctaid a) := by
  simp only [ctaidReads, List.mem_map, List.mem_filter, decide_eq_true_eq]
  constructor
  · rintro ⟨K, ⟨hK, hread⟩, hid⟩
    obtain ⟨c, -, hKc⟩ := List.mem_flatMap.1 hK
    rwa [← hF.eq_of_id hKc hI hid]
  · intro hread
    exact ⟨I, ⟨List.mem_flatMap.2 ⟨b, hF.body_mem b I hI, hI⟩, hread⟩, rfl⟩

theorem Func.WellFormed.replaceReads_body (hF : F.WellFormed) (b : ℕ) :
    (F.replaceReads a (.arg n)).body b
      = ((F.body b).filter fun I => I.sreg ≠ some (.ctaid a)).map
          fun I => I.substUses (F.ctaidReads a) (.arg n) := by
  rw [replaceReads, foldl_replace_body fun w => Operand.noConfusion]
  refine congrArg _ (List.filter_congr fun I hI => ?_)
  simp [hF.mem_ctaidReads hI]

end

/-! ## Simulation -/

/-- An operand that is an argument is one of the first `k`. -/
def Operand.ArgBelow (k : ℕ) : Operand → Prop
  | .arg n => n < k
  | _ => True

instance (k : ℕ) : DecidablePred (Operand.ArgBelow k) := fun x => by
  unfold Operand.ArgBelow
  split <;> infer_instance

/-- Code as the verifier accepts it. -/
structure Code.WellFormed (P : Code) : Prop where
  func : P.func.WellFormed
  valid : P.func.Valid
  args_below : ∀ b, ∀ I ∈ P.func.body b,
    (∀ x ∈ I.args, x.ArgBelow P.arity) ∧ ∀ p ∈ I.incoming, p.2.ArgBelow P.arity

section

variable {V E : Type} {D : String → Option Code} {J : Meaning V E} {hw : Coords}
  {P : Code} {a : Axis} {t t' : Dim3} {args : ℕ → V}

/-- Where a read's value is available, it is `T`. -/
def ReadsAre (P : Code) (a : Axis) (T : V) (b : ℕ) (pre : List ℕ) (vals : ℕ → V) : Prop :=
  ∀ v ∈ P.func.ctaidReads a, P.func.Available b pre v → vals v = T

/-- The values agree but for the erased reads. -/
def AgreeOff (P : Code) (a : Axis) (vals vals' : ℕ → V) : Prop :=
  ∀ v ∉ P.func.ctaidReads a, vals' v = vals v

/-- The frame of the rewritten code, with `T` behind the arguments; `k` is its number of parameters. -/
def replacedFrame (P : Code) (a : Axis) (k : ℕ) (t' : Dim3) (args : ℕ → V) (T : V) : Frame V :=
  { code := { P.replaceReads a with arity := k }
    ctaid := t'
    args := Function.update args P.arity T }

/-- Two ways out of block `b` that correspond. -/
inductive EndsAgree (P : Code) (a : Axis) (T : V) (b : ℕ) : BlockEnd V → BlockEnd V → Prop
  | jump {c : ℕ} {vals vals' : ℕ → V} (hc : c ∈ P.func.cfg.succ b) (hag : AgreeOff P a vals vals')
      (hreads : ReadsAre P a T b (P.func.ids b) vals) :
      EndsAgree P a T b (.jump c vals) (.jump c vals')
  | ret (v : V) : EndsAgree P a T b (.ret v) (.ret v)
  | cut : EndsAgree P a T b .cut .cut

variable {T : V} {k b : ℕ} {pre : List ℕ} {vals vals' vals₀ vals₀' : ℕ → V}

/-- Replaced operands have the old value. -/
theorem eval_subst (hag : AgreeOff P a vals vals') (hreads : ReadsAre P a T b pre vals)
    {x : Operand} (hx : x.All (P.func.Available b pre)) (hbelow : x.ArgBelow P.arity) :
    (replacedFrame P a k t' args T).eval J vals' (x.subst (P.func.ctaidReads a) (.arg P.arity))
      = (Frame.mk P t args).eval J vals x := by
  cases x with
  | inst v =>
      by_cases hv : v ∈ P.func.ctaidReads a
      · show (replacedFrame P a k t' args T).eval J vals' (if _ then _ else _) = vals v
        rw [if_pos hv, hreads v hv hx]
        exact Function.update_self ..
      · show (replacedFrame P a k t' args T).eval J vals' (if _ then _ else _) = vals v
        rw [if_neg hv]
        exact hag v hv
  | arg n => exact Function.update_of_ne (Nat.ne_of_lt hbelow) ..
  | fpZero => rfl
  | fpNegInf => rfl
  | otherConst n => rfl

theorem map_eval_subst (hag : AgreeOff P a vals vals') (hreads : ReadsAre P a T b pre vals)
    {l : List Operand} (hl : ∀ x ∈ l, x.All (P.func.Available b pre))
    (hbelow : ∀ x ∈ l, x.ArgBelow P.arity) :
    (l.map fun x => x.subst (P.func.ctaidReads a) (.arg P.arity)).map
        ((replacedFrame P a k t' args T).eval J vals') = l.map ((Frame.mk P t args).eval J vals) := by
  rw [List.map_map]
  exact List.map_congr_left fun x hx => eval_subst hag hreads (hl x hx) (hbelow x hx)

theorem phiValue_subst {prev : Option ℕ} {I : Instr} (hag : AgreeOff P a vals₀ vals₀')
    (hreads : ∀ p, prev = some p → ReadsAre P a T p (P.func.ids p) vals₀)
    (hI : ∀ p ∈ I.incoming, p.2.All (P.func.Available p.1 (P.func.ids p.1)))
    (hbelow : ∀ p ∈ I.incoming, p.2.ArgBelow P.arity) :
    (replacedFrame P a k t' args T).phiValue J vals₀' prev
        (I.substUses (P.func.ctaidReads a) (.arg P.arity))
      = (Frame.mk P t args).phiValue J vals₀ prev I := by
  cases prev with
  | none => rfl
  | some q =>
      simp only [Frame.phiValue, Instr.substUses, Option.bind_some, List.find?_map,
        Function.comp_def]
      cases hfind : I.incoming.find? fun p => p.1 == q with
      | none => rfl
      | some p =>
          have hq : p.1 = q := by simpa using List.find?_some hfind
          have hmem := List.mem_of_find?_eq_some hfind
          subst hq
          exact eval_subst hag (hreads p.1 rfl) (hI p hmem) (hbelow p hmem)

/-- An instruction that is no read of the axis has the old value. -/
theorem value_subst {call : Code → List V → List E → Option V × List E} {I : Instr} {vs : List V}
    {h : List E} (ht : ∀ c ≠ a, t'.get c = t.get c) (hI : I.sreg ≠ some (.ctaid a)) :
    (replacedFrame P a k t' args T).value D J hw call
        (I.substUses (P.func.ctaidReads a) (.arg P.arity)) vs h
      = (Frame.mk P t args).value D J hw call I vs h := by
  have hsreg : (I.substUses (P.func.ctaidReads a) (.arg P.arity)).sreg = I.sreg := rfl
  simp only [Frame.value, hsreg]
  cases hr : I.sreg with
  | none => rfl
  | some r =>
      cases r with
      | nctaid c => rfl
      | ctaid c =>
          have hca : c ≠ a := fun hca => hI (hca ▸ hr)
          show (some (J.ofNat (t'.get c)), h) = (some (J.ofNat (t.get c)), h)
          rw [ht c hca]

theorem leave_subst {I : Instr} (hag : AgreeOff P a vals vals') (hb : I.id ∉ P.func.ctaidReads a)
    (hreads : ReadsAre P a T b pre vals) (hids : P.func.ids b = pre ++ [I.id])
    (hargs : ∀ x ∈ I.args, x.All (P.func.Available b pre))
    (hbelow : ∀ x ∈ I.args, x.ArgBelow P.arity) :
    EndsAgree P a T b ((Frame.mk P t args).leave J b I vals)
      ((replacedFrame P a k t' args T).leave J b
        (I.substUses (P.func.ctaidReads a) (.arg P.arity)) vals') := by
  have hcfg : (replacedFrame P a k t' args T).code.func.cfg = P.func.cfg := Func.replaceReads_cfg _
  have hvs : (I.substUses (P.func.ctaidReads a) (.arg P.arity)).args.map
      ((replacedFrame P a k t' args T).eval J vals') = I.args.map ((Frame.mk P t args).eval J vals) :=
    map_eval_subst hag hreads hargs hbelow
  have hname : (replacedFrame P a k t' args T).code.name = P.name := rfl
  have hid : (I.substUses (P.func.ctaidReads a) (.arg P.arity)).id = I.id := rfl
  simp only [Frame.leave, hcfg, hvs, hname, hid]
  split
  · next c hc =>
      refine .jump (List.mem_of_getElem? hc) hag fun v hv hav => hreads v hv ?_
      refine hav.mono (fun _ h => h) fun hmem => ?_
      rw [hids, List.mem_append, List.mem_singleton] at hmem
      exact hmem.resolve_right fun he => hb (he ▸ hv)
  · exact .ret _

/-- Behind an instruction, the reads are as before it, or the instruction is one. -/
theorem ReadsAre.update {I : Instr} {v : V} (hreads : ReadsAre P a T b pre vals)
    (hI : I.id ∈ P.func.ctaidReads a → v = T) :
    ReadsAre P a T b (pre ++ [I.id]) (Function.update vals I.id v) := by
  intro w hw hav
  by_cases hwI : w = I.id
  · rw [hwI, Function.update_self]
    exact hI (hwI ▸ hw)
  · rw [Function.update_of_ne hwI]
    refine hreads w hw (hav.mono (fun _ h => h) fun hmem => ?_)
    rw [List.mem_append, List.mem_singleton] at hmem
    exact hmem.resolve_right hwI

theorem AgreeOff.update {w : ℕ} {x : V} (hag : AgreeOff P a vals vals') :
    AgreeOff P a (Function.update vals w x) (Function.update vals' w x) := by
  intro v hv
  by_cases hvw : v = w
  · rw [hvw, Function.update_self, Function.update_self]
  · rw [Function.update_of_ne hvw, Function.update_of_ne hvw]
    exact hag v hv

/-- A read changes only its own value. -/
theorem AgreeOff.update_read {w : ℕ} {x : V} (hag : AgreeOff P a vals vals')
    (hw : w ∈ P.func.ctaidReads a) : AgreeOff P a (Function.update vals w x) vals' := by
  intro v hv
  have hvw : v ≠ w := fun he => hv (he ▸ hw)
  rw [Function.update_of_ne hvw]
  exact hag v hv

/-- **One block**: the rewritten instructions leave the block as the original ones do. -/
theorem runBlock_replaceReads {call : Code → List V → List E → Option V × List E}
    (hP : P.WellFormed) (ht : ∀ c ≠ a, t'.get c = t.get c) (hT : J.ofNat (t.get a) = T)
    {prev : Option ℕ} (hag₀ : AgreeOff P a vals₀ vals₀')
    (hreads₀ : ∀ p, prev = some p → ReadsAre P a T p (P.func.ids p) vals₀) {l done : List Instr}
    (hbody : P.func.body b = done ++ l) (hag : AgreeOff P a vals vals')
    (hreads : ReadsAre P a T b (done.map Instr.id) vals) (h : List E) :
    EndsAgree P a T b (runBlock D J hw call ⟨P, t, args⟩ vals₀ prev b l vals h).1
        (runBlock D J hw call (replacedFrame P a k t' args T) vals₀' prev b
          ((l.filter fun I => I.sreg ≠ some (.ctaid a)).map
            fun I => I.substUses (P.func.ctaidReads a) (.arg P.arity)) vals' h).1 ∧
      (runBlock D J hw call ⟨P, t, args⟩ vals₀ prev b l vals h).2
        = (runBlock D J hw call (replacedFrame P a k t' args T) vals₀' prev b
          ((l.filter fun I => I.sreg ≠ some (.ctaid a)).map
            fun I => I.substUses (P.func.ctaidReads a) (.arg P.arity)) vals' h).2 := by
  induction l generalizing done vals vals' h with
  | nil => exact ⟨.cut, rfl⟩
  | cons I rest ih =>
      have hmem : I ∈ P.func.body b := hbody ▸ List.mem_append_right _ (List.mem_cons_self ..)
      have hvalid := hP.valid b
      rw [hbody, Func.bodyOk_append] at hvalid
      have hok : P.func.OperandsOk P.func.Available b (done.map Instr.id) I := hvalid.2.1
      have hbelow := hP.args_below b I hmem
      have hread : I.id ∈ P.func.ctaidReads a ↔ I.sreg = some (.ctaid a) :=
        hP.func.mem_ctaidReads hmem
      have hnext : P.func.body b = (done ++ [I]) ++ rest := by rw [hbody, List.append_assoc]; rfl
      have hids : (done ++ [I]).map Instr.id = done.map Instr.id ++ [I.id] := List.map_append
      by_cases hI : I.sreg = some (.ctaid a)
      · -- an erased read: the original computes its value, which is `T`
        have hskip : (I :: rest).filter (fun I => I.sreg ≠ some (.ctaid a))
            = rest.filter fun I => I.sreg ≠ some (.ctaid a) :=
          List.filter_cons_of_neg (by simp [hI])
        rw [hskip, runBlock_value (Instr.not_phi_of_sreg hI) (Instr.not_terminator_of_sreg hI),
          Frame.value_sreg_ctaid hI]
        exact ih hnext (hag.update_read (hread.2 hI)) (hids ▸ hreads.update fun _ => hT) h
      · have hkeep : (I :: rest).filter (fun I => I.sreg ≠ some (.ctaid a))
            = I :: rest.filter fun I => I.sreg ≠ some (.ctaid a) :=
          List.filter_cons_of_pos (by simp [hI])
        rw [hkeep, List.map_cons]
        have hnot : I.id ∉ P.func.ctaidReads a := fun hmem => hI (hread.1 hmem)
        by_cases hphi : I.op = .phi
        · rw [runBlock_phi hphi, runBlock_phi (I := I.substUses _ _) hphi,
            phiValue_subst hag₀ hreads₀ hok.2 hbelow.2]
          exact ih hnext hag.update (hids ▸ hreads.update fun hmem => absurd hmem hnot) h
        · by_cases hterm : I.op = .terminator
          · rw [runBlock_terminator hterm, runBlock_terminator (I := I.substUses _ _) hterm]
            refine ⟨leave_subst hag hnot hreads ?_ hok.1 hbelow.1, rfl⟩
            rw [Func.ids, hbody, hP.func.eq_nil_of_terminator hbody hterm, List.map_append]
            rfl
          · rw [runBlock_value hphi hterm, runBlock_value (I := I.substUses _ _) hphi hterm,
              value_subst ht hI]
            have hvs : (I.substUses (P.func.ctaidReads a) (.arg P.arity)).args.map
                ((replacedFrame P a k t' args T).eval J vals')
                  = I.args.map ((Frame.mk P t args).eval J vals) :=
              map_eval_subst hag hreads hok.1 hbelow.1
            rw [hvs]
            generalize Frame.value D J hw call _ I _ h = r
            obtain ⟨v, h'⟩ := r
            cases v with
            | none => exact ⟨.cut, rfl⟩
            | some v =>
                exact ih hnext hag.update (hids ▸ hreads.update fun hmem => absurd hmem hnot) h'

/-- From any point of a run on. -/
theorem run_replaceReads_from (hP : P.WellFormed) (ht : ∀ c ≠ a, t'.get c = t.get c)
    (hT : J.ofNat (t.get a) = T) (n : ℕ) {prev : Option ℕ} (hag : AgreeOff P a vals vals')
    (hentry : ReadsAre P a T b [] vals)
    (hprev : ∀ p, prev = some p → ReadsAre P a T p (P.func.ids p) vals) (h : List E) :
    run D J hw n (replacedFrame P a k t' args T) vals' prev b h
      = run D J hw n ⟨P, t, args⟩ vals prev b h := by
  induction n generalizing vals vals' prev b h with
  | zero => rfl
  | succ n ih =>
      let call Q as h :=
        run D J hw n (deviceFrame J hw Q as) (fun _ => J.undef) none Q.func.cfg.entry h
      obtain ⟨hends, hhist⟩ := @runBlock_replaceReads V E D J hw P a t t' args T k b vals vals' vals
        vals' call hP ht hT prev hag hprev (P.func.body b) [] rfl hag hentry h
      have hbody : (replacedFrame P a k t' args T).code.func.body b = _ :=
        hP.func.replaceReads_body b
      rw [run, run, hbody]
      revert hends hhist
      generalize runBlock D J hw call ⟨P, t, args⟩ vals prev b (P.func.body b) vals h = r
      generalize runBlock D J hw call (replacedFrame P a k t' args T) vals' prev b _ vals' h = r'
      obtain ⟨e, h₁⟩ := r
      obtain ⟨e', h₂⟩ := r'
      rintro hends rfl
      cases hends with
      | jump hc hag hreads =>
          refine ih hag (fun v hv hav => hreads v hv (hav.of_succ hc)) ?_ h₁
          rintro p ⟨⟩
          exact hreads
      | ret v => rfl
      | cut => rfl

/-- **A function whose reads were replaced by `T` does what the original does when its own reads of the
    axis give `T`.** -/
theorem runFrame_replaceReads (hP : P.WellFormed) (ht : ∀ c ≠ a, t'.get c = t.get c)
    (hT : J.ofNat (t.get a) = T) (n : ℕ) :
    runFrame D J hw n (replacedFrame P a k t' args T) = runFrame D J hw n ⟨P, t, args⟩ := by
  have hcfg : (replacedFrame P a k t' args T).code.func.cfg = P.func.cfg := Func.replaceReads_cfg _
  unfold runFrame
  rw [hcfg]
  refine run_replaceReads_from hP ht hT n (fun _ _ => rfl) (fun v _ hav => ?_) (fun p hp => ?_) []
  · exact absurd hav Cfg.not_available_entry
  · cases hp

end

end SchedPass
