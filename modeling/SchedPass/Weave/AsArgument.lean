import Mathlib.Algebra.Order.BigOperators.Group.List
import SchedPass.Weave.Instrument
import SchedPass.Weave.ReplaceReads

set_option autoImplicit false

/-! # A value that is computed once

Control passes a PHI at most once when the blocks that lead to it are never entered again
(`Func.ComputedOnce`). Instructions behind the PHI that use it then do what they would do if its value
had been handed over as an argument, and there is one such value for the whole run, however long the
run is observed (`exists_runFrame_asArgument`). -/

namespace SchedPass

/-! ## Handing over the value -/

/-- The instructions below `n` use argument `k` in the place of the values `ps`. -/
def Instr.asArgument (n : ℕ) (ps : List ℕ) (k : ℕ) (I : Instr) : Instr :=
  if I.id < n then I.substUses ps (.arg k) else I

def Func.asArgument (F : Func) (n : ℕ) (ps : List ℕ) (k : ℕ) : Func :=
  { F with body := fun b => (F.body b).map (Instr.asArgument n ps k) }

/-- No operand of an instruction is argument `k` or one above. -/
def Func.ArgsBelow (F : Func) (k : ℕ) : Prop :=
  ∀ b, ∀ I ∈ F.body b, (∀ x ∈ I.args, x.ArgBelow k) ∧ ∀ p ∈ I.incoming, p.2.ArgBelow k

/-- `p` is a PHI of block `t`, the blocks `L` that lead there are entered from one another only, in the
    order of their rank, and nothing is called before `p` is there. -/
structure Func.ComputedOnce (F : Func) (p t : ℕ) (L : ℕ → Prop) (rank : ℕ → ℕ) : Prop where
  phi : ∃ I ∈ F.body t, I.id = p ∧ I.op = .phi
  mem : L t
  back : ∀ b ∈ F.blocks, ∀ c ∈ F.cfg.succ b, L c → L b ∧ rank c < rank b
  calls : ∀ b l I post, F.body b = l ++ I :: post → I.callsNothing = false →
    F.Available b (l.map Instr.id) p

section

variable {n k : ℕ} {ps : List ℕ} {I : Instr}

@[simp] theorem Instr.asArgument_id : (I.asArgument n ps k).id = I.id := by
  unfold asArgument
  split_ifs <;> rfl

@[simp] theorem Instr.asArgument_op : (I.asArgument n ps k).op = I.op := by
  unfold asArgument
  split_ifs <;> rfl

theorem Instr.asArgument_sreg : (I.asArgument n ps k).sreg = I.sreg := by
  simp only [sreg, asArgument_op]

/-- There is an argument that no instruction uses. -/
theorem Func.WellFormed.exists_argsBelow {F : Func} (hF : F.WellFormed) :
    ∃ k, ∀ m, k ≤ m → F.ArgsBelow m := by
  have hone : ∀ x : Operand, ∃ k, ∀ m, k ≤ m → x.ArgBelow m := by
    intro x
    cases x with
    | arg j => exact ⟨j + 1, fun m hm => hm⟩
    | _ => exact ⟨0, fun _ _ => trivial⟩
  have hlist : ∀ xs : List Operand, ∃ k, ∀ m, k ≤ m → ∀ x ∈ xs, x.ArgBelow m := by
    intro xs
    choose f hf using hone
    refine ⟨(xs.map f).sum, fun m hm x hx => hf x m (le_trans ?_ hm)⟩
    exact List.single_le_sum (by simp) _ (List.mem_map_of_mem hx)
  obtain ⟨k, hk⟩ := hlist (F.instructions.flatMap fun I => I.args ++ I.incoming.map Prod.snd)
  refine ⟨k, fun m hm b I hI => ?_⟩
  have hmem : ∀ x ∈ I.args ++ I.incoming.map Prod.snd, x.ArgBelow m := fun x hx =>
    hk m hm x (List.mem_flatMap.2 ⟨I, List.mem_flatMap.2 ⟨b, hF.body_mem b I hI, hI⟩, hx⟩)
  exact ⟨fun x hx => hmem x (List.mem_append_left _ hx),
    fun p hp => hmem p.2 (List.mem_append_right _ (List.mem_map_of_mem hp))⟩

end

/-! ## One block -/

section

variable {V E : Type} {D : String → Option Code} {J : Meaning V E} {hw : Coords} {P : Code}
  {ctaid : Dim3} {args : ℕ → V} {T : V} {n p t k b : ℕ} {pre : List ℕ} {prev : Option ℕ}
  {vals vals₀ : ℕ → V} {call call' : Code → List V → List E → Option V × List E} {I : Instr}

/-- Where `p` is available, it is `T`. -/
def Known (P : Code) (p : ℕ) (T : V) (b : ℕ) (pre : List ℕ) (vals : ℕ → V) : Prop :=
  P.func.Available b pre p → vals p = T

/-- The frame that is handed `T` over as argument `k`. -/
def argumentFrame (P : Code) (n p k : ℕ) (ctaid : Dim3) (args : ℕ → V) (T : V) : Frame V :=
  { code := { P with func := P.func.asArgument n [p] k }
    ctaid := ctaid
    args := Function.update args k T }

theorem eval_argumentFrame {x : Operand} (hx : x.ArgBelow k) :
    (argumentFrame P n p k ctaid args T).eval J vals x = (Frame.mk P ctaid args).eval J vals x := by
  cases x with
  | arg j => exact Function.update_of_ne (Nat.ne_of_lt hx) ..
  | _ => rfl

theorem eval_substArgument (hknown : Known P p T b pre vals) {x : Operand}
    (hx : x.All (P.func.Available b pre)) (hbelow : x.ArgBelow k) :
    (argumentFrame P n p k ctaid args T).eval J vals (x.subst [p] (.arg k))
      = (Frame.mk P ctaid args).eval J vals x := by
  cases x with
  | inst v =>
      by_cases hv : v = p
      · subst hv
        simp only [Operand.subst, List.mem_singleton, if_true]
        exact (Function.update_self ..).trans (hknown hx).symm
      · simp only [Operand.subst, List.mem_singleton, hv, if_false]
        rfl
  | arg j => exact eval_argumentFrame hbelow
  | _ => rfl

theorem map_eval_argumentFrame (hknown : Known P p T b pre vals)
    (hI : ∀ x ∈ I.args, x.All (P.func.Available b pre)) (hbelow : ∀ x ∈ I.args, x.ArgBelow k) :
    (I.asArgument n [p] k).args.map ((argumentFrame P n p k ctaid args T).eval J vals)
      = I.args.map ((Frame.mk P ctaid args).eval J vals) := by
  unfold Instr.asArgument
  split_ifs
  · rw [Instr.substUses, List.map_map]
    exact List.map_congr_left fun x hx => eval_substArgument hknown (hI x hx) (hbelow x hx)
  · exact List.map_congr_left fun x hx => eval_argumentFrame (hbelow x hx)

theorem phiValue_argumentFrame (hknown : ∀ q, prev = some q → Known P p T q (P.func.ids q) vals)
    (hI : ∀ q ∈ I.incoming, q.2.All (P.func.Available q.1 (P.func.ids q.1)))
    (hbelow : ∀ q ∈ I.incoming, q.2.ArgBelow k) :
    (argumentFrame P n p k ctaid args T).phiValue J vals prev (I.asArgument n [p] k)
      = (Frame.mk P ctaid args).phiValue J vals prev I := by
  cases prev with
  | none => rfl
  | some q =>
      have hfind : (I.asArgument n [p] k).incoming.find? (fun r => r.1 == q)
          = (I.incoming.find? fun r => r.1 == q).map fun r =>
              (r.1, if I.id < n then r.2.subst [p] (.arg k) else r.2) := by
        unfold Instr.asArgument
        split_ifs
        · simp only [Instr.substUses, List.find?_map, Function.comp_def]
        · simp
      simp only [Frame.phiValue, Option.bind_some, hfind]
      cases hr : I.incoming.find? fun r => r.1 == q with
      | none => rfl
      | some r =>
          have hq : r.1 = q := by simpa using List.find?_some hr
          have hmem := List.mem_of_find?_eq_some hr
          subst hq
          rw [Option.map_some]
          dsimp only
          split_ifs
          · exact eval_substArgument (hknown r.1 rfl) (hI r hmem) (hbelow r hmem)
          · exact eval_argumentFrame (hbelow r hmem)

theorem value_argumentFrame (vs : List V) (h : List E) :
    (argumentFrame P n p k ctaid args T).value D J hw call (I.asArgument n [p] k) vs h
      = (Frame.mk P ctaid args).value D J hw call I vs h := by
  simp only [Frame.value, Instr.asArgument_sreg, Meaning.callee, Instr.asArgument_op,
    Instr.asArgument_id]
  rfl

/-- Behind an instruction, `p` is as before it, or the instruction is `p`. -/
theorem Known.update (hknown : Known P p T b pre vals) {v : V} (hI : I.id = p → v = T) :
    Known P p T b (pre ++ [I.id]) (Function.update vals I.id v) := by
  intro hav
  by_cases hp : I.id = p
  · rw [hp, Function.update_self]
    exact hI hp
  · rw [Function.update_of_ne (Ne.symm hp)]
    refine hknown (hav.mono (fun _ h => h) fun hmem => ?_)
    rw [List.mem_append, List.mem_singleton] at hmem
    exact hmem.resolve_right (Ne.symm hp)

/-- **One block**: with `T` handed over it is left as it was; `p` is computed in it only to be `T`. -/
theorem runBlock_asArgument (call : Code → List V → List E → Option V × List E)
    (hF : P.func.WellFormed) (hvalid : P.func.Valid) (hk : P.func.ArgsBelow k)
    (hknown₀ : ∀ q, prev = some q → Known P p T q (P.func.ids q) vals₀) {l done : List Instr}
    (hbody : P.func.body b = done ++ l) (hp : ∀ I ∈ l, I.id = p →
      I.op = .phi ∧ (Frame.mk P ctaid args).phiValue J vals₀ prev I = T)
    (hknown : Known P p T b (done.map Instr.id) vals) (h : List E) :
    runBlock D J hw call (argumentFrame P n p k ctaid args T) vals₀ prev b
        (l.map (Instr.asArgument n [p] k)) vals h
      = runBlock D J hw call ⟨P, ctaid, args⟩ vals₀ prev b l vals h ∧
    ∀ c vals' h', runBlock D J hw call ⟨P, ctaid, args⟩ vals₀ prev b l vals h = (.jump c vals', h') →
      c ∈ P.func.cfg.succ b ∧ Known P p T b (P.func.ids b) vals' := by
  induction l generalizing done vals h with
  | nil => exact ⟨rfl, fun c vals' h' hrun => by cases hrun⟩
  | cons I rest ih =>
      have hmem : I ∈ P.func.body b := hbody ▸ List.mem_append_right _ (List.mem_cons_self ..)
      have hok := hvalid b
      rw [hbody, Func.bodyOk_append] at hok
      have hI : P.func.OperandsOk P.func.Available b (done.map Instr.id) I := hok.2.1
      have hbelow := hk b I hmem
      have hnext : P.func.body b = (done ++ [I]) ++ rest := by rw [hbody, List.append_assoc]; rfl
      have hrest := fun K hK => hp K (List.mem_cons_of_mem I hK)
      have hpI := hp I (List.mem_cons_self ..)
      have hids : (done ++ [I]).map Instr.id = done.map Instr.id ++ [I.id] := List.map_append
      rw [List.map_cons]
      by_cases hphi : I.op = .phi
      · rw [runBlock_phi hphi, runBlock_phi (I := I.asArgument n [p] k) (by simpa using hphi),
          phiValue_argumentFrame hknown₀ hI.2 hbelow.2, Instr.asArgument_id]
        exact ih hnext hrest (hids ▸ hknown.update fun hid => (hpI hid).2) h
      · have hne : I.id ≠ p := fun hid => hphi (hpI hid).1
        by_cases hterm : I.op = .terminator
        · rw [runBlock_terminator hterm,
            runBlock_terminator (I := I.asArgument n [p] k) (by simpa using hterm)]
          have hleave : (argumentFrame P n p k ctaid args T).leave J b (I.asArgument n [p] k) vals
              = (Frame.mk P ctaid args).leave J b I vals := by
            simp only [Frame.leave, map_eval_argumentFrame hknown hI.1 hbelow.1, Instr.asArgument_id]
            rfl
          refine ⟨by rw [hleave], fun c vals' h' hrun => ?_⟩
          have hleft : (Frame.mk P ctaid args).leave J b I vals = .jump c vals' :=
            congrArg Prod.fst hrun
          unfold Frame.leave at hleft
          dsimp only at hleft
          split at hleft
          · next c' hc =>
              obtain ⟨rfl, rfl⟩ := BlockEnd.jump.inj hleft
              refine ⟨List.mem_of_getElem? hc, fun hav => hknown (hav.mono (fun _ h => h) fun hin => ?_)⟩
              rw [Func.ids, hbody, hF.eq_nil_of_terminator hbody hterm, List.map_append,
                List.mem_append, List.map_cons, List.map_nil, List.mem_singleton] at hin
              exact hin.resolve_right (Ne.symm hne)
          · cases hleft
        · rw [runBlock_value hphi hterm, runBlock_value (I := I.asArgument n [p] k)
            (by simpa using hphi) (by simpa using hterm), value_argumentFrame,
            map_eval_argumentFrame hknown hI.1 hbelow.1, Instr.asArgument_id]
          generalize Frame.value D J hw call _ I _ h = r
          obtain ⟨v, h'⟩ := r
          cases v with
          | none => exact ⟨rfl, fun c vals' h' hrun => by cases hrun⟩
          | some v => exact ih hnext hrest (hids ▸ hknown.update fun hid => absurd hid hne) h'

/-- A block that calls nothing does not depend on what a call would do. -/
theorem runBlock_of_callsNothing {fr : Frame V} {l : List Instr}
    (hl : ∀ I ∈ l, I.callsNothing = true) (h : List E) :
    runBlock D J hw call fr vals₀ prev b l vals h = runBlock D J hw call' fr vals₀ prev b l vals h := by
  induction l generalizing vals h with
  | nil => rfl
  | cons I rest ih =>
      have hrest : ∀ vals h, runBlock D J hw call fr vals₀ prev b rest vals h
          = runBlock D J hw call' fr vals₀ prev b rest vals h :=
        fun vals h => ih (fun K hK => hl K (List.mem_cons_of_mem I hK)) h
      by_cases hphi : I.op = .phi
      · rw [runBlock_phi hphi, runBlock_phi hphi, hrest]
      · by_cases hterm : I.op = .terminator
        · rw [runBlock_terminator hterm, runBlock_terminator hterm]
        · have hvalue : fr.value D J hw call I (I.args.map (fr.eval J vals)) h
              = fr.value D J hw call' I (I.args.map (fr.eval J vals)) h := by
            have hquiet := hl I (List.mem_cons_self ..)
            have hcallee : J.callee D I (I.args.map (fr.eval J vals)) = none := by
              unfold Meaning.callee
              unfold Instr.callsNothing at hquiet
              split at hquiet
              · cases hquiet
              · next hop => split <;> simp_all
            simp only [Frame.value, hcallee]
          rw [runBlock_value hphi hterm, runBlock_value hphi hterm, hvalue]
          simp only [hrest]

end

/-! ## Whole runs -/

section

variable {V E : Type} {D : String → Option Code} {J : Meaning V E} {hw : Coords} {P : Code}
  {ctaid : Dim3} {args : ℕ → V} {T : V} {n p t k b : ℕ} {L : ℕ → Prop} {rank : ℕ → ℕ}
  {prev : Option ℕ} {vals : ℕ → V}

/-- Control is past block `t`. -/
def Past (t : ℕ) (L : ℕ → Prop) (rank : ℕ → ℕ) (b : ℕ) : Prop := L b → rank b < rank t

variable (hF : P.func.WellFormed) (hvalid : P.func.Valid) (hk : P.func.ArgsBelow k)
  (honce : P.func.ComputedOnce p t L rank)

include honce in
theorem Past.succ (hpast : Past t L rank b) (hb : b ∈ P.func.blocks) {c : ℕ}
    (hc : c ∈ P.func.cfg.succ b) : Past t L rank c := fun hL =>
  have hback := honce.back b hb c hc hL
  hback.2.trans (hpast hback.1)

include hF honce in
/-- `p` is in block `t` only. -/
theorem Func.ComputedOnce.block_eq {I : Instr} (hI : I ∈ P.func.body b) (hid : I.id = p) :
    b = t ∧ I.op = .phi := by
  obtain ⟨K, hK, hKp, hop⟩ := honce.phi
  have hbt : b = t := hF.ids_block b t p (hid ▸ List.mem_map_of_mem hI) (hKp ▸ List.mem_map_of_mem hK)
  subst hbt
  exact ⟨rfl, hF.eq_of_id hI hK (hid.trans hKp.symm) ▸ hop⟩

/-- What is left to do when a block ends. -/
def afterBlock (D : String → Option Code) (J : Meaning V E) (hw : Coords) (m : ℕ) (fr : Frame V)
    (b : ℕ) : BlockEnd V × List E → Option V × List E
  | (.jump c vals, h) => run D J hw m fr vals (some b) c h
  | (.ret v, h) => (some v, h)
  | (.cut, h) => (none, h)

theorem run_succ_afterBlock (m : ℕ) (fr : Frame V) (h : List E) :
    run D J hw (m + 1) fr vals prev b h = afterBlock D J hw m fr b
      (runBlock D J hw (J.call D hw m) fr vals prev b (fr.code.func.body b) vals h) := rfl

include hF hvalid hk honce

/-- Past block `t` the value of `p` stays what it is. -/
theorem run_asArgument_past (m : ℕ) (hb : b ∈ P.func.blocks) (hpast : Past t L rank b)
    (hknown : Known P p T b [] vals)
    (hprev : ∀ q, prev = some q → Known P p T q (P.func.ids q) vals) (h : List E) :
    run D J hw m (argumentFrame P n p k ctaid args T) vals prev b h
      = run D J hw m ⟨P, ctaid, args⟩ vals prev b h := by
  induction m generalizing b vals prev h with
  | zero => rfl
  | succ m ih =>
      have hnot : ∀ I ∈ P.func.body b, I.id = p → I.op = .phi ∧
          (Frame.mk P ctaid args).phiValue J vals prev I = T := by
        intro I hI hid
        obtain ⟨rfl, -⟩ := honce.block_eq hF hI hid
        exact absurd (hpast honce.mem) (lt_irrefl _)
      obtain ⟨heq, hjump⟩ := runBlock_asArgument (n := n) (J.call D hw m) hF hvalid hk hprev
        (List.nil_append _).symm hnot hknown h
      rw [run_succ_afterBlock, run_succ_afterBlock]
      refine (congrArg _ heq).trans ?_
      generalize hr : runBlock D J hw _ ⟨P, ctaid, args⟩ vals prev b (P.func.body b) vals h = r
        at hjump
      obtain ⟨e, h'⟩ := r
      cases e with
      | jump c vals' =>
          obtain ⟨hc, hknown'⟩ := hjump c vals' h' rfl
          refine ih (hF.succ_mem b hb c hc) (hpast.succ honce hb hc)
            (fun hav => hknown' (hav.of_succ hc)) ?_ h'
          rintro q ⟨⟩
          exact hknown'
      | ret v => rfl
      | cut => rfl

/-- In block `t` the value is computed. -/
theorem exists_run_asArgument_at (hknown : ∀ T, Known P p T t [] vals)
    (hprev : ∀ T q, prev = some q → Known P p T q (P.func.ids q) vals) (h : List E) :
    ∃ T, ∀ m, run D J hw m (argumentFrame P n p k ctaid args T) vals prev t h
      = run D J hw m ⟨P, ctaid, args⟩ vals prev t h := by
  obtain ⟨I, hI, hid, hop⟩ := honce.phi
  have ht := hF.body_mem t I hI
  refine ⟨(Frame.mk P ctaid args).phiValue J vals prev I, fun m => ?_⟩
  cases m with
  | zero => rfl
  | succ m =>
      have hp : ∀ K ∈ P.func.body t, K.id = p → K.op = .phi ∧
          (Frame.mk P ctaid args).phiValue J vals prev K
            = (Frame.mk P ctaid args).phiValue J vals prev I := by
        intro K hK hKp
        obtain rfl := hF.eq_of_id hK hI (hKp.trans hid.symm)
        exact ⟨hop, rfl⟩
      obtain ⟨heq, hjump⟩ := runBlock_asArgument (n := n) (J.call D hw m) hF hvalid hk
        (hprev _) (List.nil_append _).symm hp (hknown _) h
      rw [run_succ_afterBlock, run_succ_afterBlock]
      refine (congrArg _ heq).trans ?_
      generalize hr : runBlock D J hw _ ⟨P, ctaid, args⟩ vals prev t (P.func.body t) vals h = r
        at hjump
      obtain ⟨e, h'⟩ := r
      cases e with
      | jump c vals' =>
          obtain ⟨hc, hknown'⟩ := hjump c vals' h' rfl
          refine run_asArgument_past hF hvalid hk honce m (hF.succ_mem t ht c hc)
            (fun hL => (honce.back t ht c hc hL).2) (fun hav => hknown' (hav.of_succ hc)) ?_ h'
          rintro q ⟨⟩
          exact hknown'
      | ret v => rfl
      | cut => rfl

/-- Ahead of block `t` a block calls nothing and does not depend on `p`. -/
theorem exists_runBlock_ahead (hbt : b ≠ t) (hav : ¬ P.func.Available b [] p)
    (hprev : ∀ q, prev = some q → ¬ P.func.Available q (P.func.ids q) p) (h : List E) :
    ¬ P.func.Available b (P.func.ids b) p ∧ ∃ e h', (∀ T call,
      runBlock D J hw call (argumentFrame P n p k ctaid args T) vals prev b
          ((P.func.body b).map (Instr.asArgument n [p] k)) vals h = (e, h') ∧
        runBlock D J hw call ⟨P, ctaid, args⟩ vals prev b (P.func.body b) vals h = (e, h')) ∧
      ∀ c vals', e = .jump c vals' → c ∈ P.func.cfg.succ b := by
  have hnot : p ∉ P.func.ids b := fun hp => by
    obtain ⟨I, hI, hid⟩ := List.mem_map.1 hp
    exact hbt (honce.block_eq hF hI hid).1
  have hquiet : ∀ I ∈ P.func.body b, I.callsNothing = true := by
    intro I hI
    obtain ⟨l, post, hbody⟩ := List.append_of_mem hI
    by_contra hcall
    rcases honce.calls b l I post hbody (by simpa using hcall) with hmem | hdom
    · refine hnot ?_
      rw [Func.ids, hbody, List.map_append]
      exact List.mem_append_left _ hmem
    · exact hav (Or.inr hdom)
  have hblock : ∀ T call, runBlock D J hw call (argumentFrame P n p k ctaid args T) vals prev b
        ((P.func.body b).map (Instr.asArgument n [p] k)) vals h
      = runBlock D J hw call ⟨P, ctaid, args⟩ vals prev b (P.func.body b) vals h ∧
      ∀ c vals' h', runBlock D J hw call ⟨P, ctaid, args⟩ vals prev b (P.func.body b) vals h
        = (.jump c vals', h') → c ∈ P.func.cfg.succ b ∧ Known P p T b (P.func.ids b) vals' :=
    fun T call => runBlock_asArgument call hF hvalid hk (fun q hq hqav => absurd hqav (hprev q hq))
      (List.nil_append _).symm (fun I hI hid => absurd (hid ▸ List.mem_map_of_mem hI) hnot)
      (fun h => absurd h hav) h
  have hone : ∀ call call', runBlock D J hw call ⟨P, ctaid, args⟩ vals prev b (P.func.body b) vals h
      = runBlock D J hw call' ⟨P, ctaid, args⟩ vals prev b (P.func.body b) vals h :=
    fun call call' => runBlock_of_callsNothing hquiet h
  let none' : Code → List V → List E → Option V × List E := fun _ _ h => (none, h)
  refine ⟨fun h => h.elim hnot fun h => hav (Or.inr h), _, _, fun T call =>
    ⟨(hblock T call).1.trans (hone call none'), hone call none'⟩, fun c vals' he => ?_⟩
  exact ((hblock J.undef none').2 c vals' _ (Prod.ext he rfl)).1

/-- **Up to block `t` nothing depends on `p`**, and what it is there it stays. -/
theorem exists_run_asArgument (hb : b ∈ P.func.blocks) (hav : ¬ P.func.Available b [] p)
    (hprev : ∀ q, prev = some q → ¬ P.func.Available q (P.func.ids q) p) (h : List E) :
    ∃ T, ∀ m, run D J hw m (argumentFrame P n p k ctaid args T) vals prev b h
      = run D J hw m ⟨P, ctaid, args⟩ vals prev b h := by
  induction hr : rank b using Nat.strong_induction_on generalizing b vals prev h with
  | h r ih =>
    by_cases hbt : b = t
    · subst hbt
      exact exists_run_asArgument_at hF hvalid hk honce (fun T h => absurd h hav)
        (fun T q hq h => absurd h (hprev q hq)) h
    · obtain ⟨hend, e, h', hblock, hsucc⟩ :=
        exists_runBlock_ahead hF hvalid hk honce hbt hav hprev h
      -- what is left is what comes behind the block
      suffices hleft : ∃ T, ∀ m,
          afterBlock D J hw m (argumentFrame P n p k ctaid args T) b (e, h')
            = afterBlock D J hw m ⟨P, ctaid, args⟩ b (e, h') by
        obtain ⟨T, hT⟩ := hleft
        refine ⟨T, fun m => ?_⟩
        cases m with
        | zero => rfl
        | succ m =>
            rw [run_succ_afterBlock, run_succ_afterBlock, (hblock T _).2]
            exact (congrArg _ (hblock T _).1).trans (hT m)
      cases e with
      | jump c vals' =>
          have hc := hsucc c vals' rfl
          have hcav : ¬ P.func.Available c [] p := fun h => hend (h.of_succ hc)
          have hcb : c ∈ P.func.blocks := hF.succ_mem b hb c hc
          by_cases hL : L c
          · refine ih (rank c) (hr ▸ (honce.back b hb c hc hL).2) hcb hcav ?_ h' rfl
            rintro q ⟨⟩
            exact hend
          · refine ⟨J.undef, fun m => run_asArgument_past hF hvalid hk honce m hcb
              (fun h => absurd h hL) (fun h => absurd h hcav) ?_ h'⟩
            rintro q ⟨⟩ h
            exact absurd h hend
      | ret v => exact ⟨J.undef, fun m => rfl⟩
      | cut => exact ⟨J.undef, fun m => rfl⟩

/-- **A value that is computed once might have been an argument.** -/
theorem exists_runFrame_asArgument : ∃ T, ∀ m,
    runFrame D J hw m (argumentFrame P n p k ctaid args T) = runFrame D J hw m ⟨P, ctaid, args⟩ :=
  exists_run_asArgument hF hvalid hk honce hF.entry_mem Cfg.not_available_entry
    (fun q hq => by cases hq) []

end

end SchedPass
