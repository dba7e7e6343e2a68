import SchedPass.Lib.OnlineSoftmax
import SchedPass.Weave.MaskedRun

set_option autoImplicit false

/-! # Loops that accumulate over streams

An accumulator of a loop is a floating-point PHI of its header that its own next value is computed from.
In a contraction an iteration adds terms to it, each a weight times the product of some loads; an online
softmax takes in tokens, each with a score and a value. `IsStreamLoop` says that the instructions of the
loop compute this, whatever its loads read and whatever its scores are.

An iteration in which every term has a load that is seen as 0, and every score is seen as `-∞`, leaves
the accumulators as they are (`Accumulation.Follows.eq_of_dropped`). -/

namespace SchedPass

/-! ## Accumulations -/

/-- What a loop accumulates, known by the PHIs of its header. -/
inductive Accumulation
  /-- A sum, with its terms, each given by the loads that it multiplies. -/
  | sum (acc : ℕ) (terms : List (List ℕ))
  /-- The running maximum, the denominator and a weighted sum of an online softmax, with the scores that
      it takes in. -/
  | softmax (m l acc : ℕ) (scores : List ℕ)
  deriving DecidableEq, Repr

def Accumulation.phis : Accumulation → List ℕ
  | sum acc _ => [acc]
  | softmax m l acc _ => [m, l, acc]

def Accumulation.scores : Accumulation → List ℕ
  | sum _ _ => []
  | softmax _ _ _ scores => scores

/-- Every term has a load that is covered by 0, or every score is covered by `-∞`. -/
def Accumulation.Covered (covers : ℕ → Operand → Prop) : Accumulation → Prop
  | sum _ terms => ∀ t ∈ terms, ∃ Ld ∈ t, covers Ld .fpZero
  | softmax _ _ _ scores => ∀ s ∈ scores, covers s .fpNegInf

/-- The value `y` is computed from `x`, among others. -/
def Func.UsedBy (F : Func) (x y : ℕ) : Prop := ∃ b, ∃ I ∈ F.body b, I.id = y ∧ I.uses x = true

/-- A floating-point PHI of the header that its own next value is computed from. -/
def Func.Accumulator (F : Func) (L : ℕ) (blocks : List ℕ) (x : ℕ) : Prop :=
  ∃ I ∈ F.body L, I.id = x ∧ I.op = .phi ∧ I.ty = .floatingPoint ∧
    ∃ b ∈ blocks, ∃ v, I.getIncomingValueForBlock b = some (.inst v) ∧
      Relation.ReflTransGen F.UsedBy x v

section

variable {𝕜 : Type}

/-- The number that a value is; for `-∞` and integers it does not matter. -/
def Value.num [Zero 𝕜] : Value 𝕜 → 𝕜
  | .fp x => x.unbotD 0
  | .int _ => 0

/-- A number or `-∞`; for integers it does not matter. -/
def Value.score : Value 𝕜 → WithBot 𝕜
  | .fp x => x
  | .int _ => ⊥

@[simp] theorem Value.num_fp [Zero 𝕜] (x : 𝕜) : (Value.fp (x : WithBot 𝕜)).num = x := rfl

@[simp] theorem Value.score_fp (x : WithBot 𝕜) : (Value.fp x).score = x := rfl

variable [Ring 𝕜] [LinearOrder 𝕜] (exp : WithBot 𝕜 → 𝕜)

/-- One iteration with the values `ρ` takes the accumulation to `next`: it adds some of the terms, or takes
    in some of the tokens, of loads and scores that it has computed (`ran`). -/
def Accumulation.Follows (ran : ℕ → Prop) (ρ : ℕ → Value 𝕜) (next : ℕ → Option (Value 𝕜)) :
    Accumulation → Prop
  | sum acc terms => ∃ weighted : List (List ℕ × 𝕜),
      (∀ t ∈ weighted, t.1 ∈ terms ∧ ∀ Ld ∈ t.1, ran Ld) ∧
      ∀ x : 𝕜, ρ acc = .fp x → next acc = some (.fp
        ((weighted.map fun t => ((t.1.map fun Ld => (ρ Ld).num).prod, t.2)).foldl contractStep x : 𝕜))
  | softmax m l acc scores => ∃ tokens : List (ℕ × 𝕜),
      (∀ t ∈ tokens, t.1 ∈ scores ∧ ran t.1) ∧
      ∀ st : SoftmaxState 𝕜, ρ m = .fp st.m → ρ l = .fp st.l → ρ acc = .fp st.acc →
        let st' := (tokens.map fun t => ((ρ t.1).score, t.2)).foldl (softmaxStep exp) st
        next m = some (.fp st'.m) ∧ next l = some (.fp st'.l) ∧ next acc = some (.fp st'.acc)

omit [LinearOrder 𝕜] in
/-- The accumulators are numbers; only the maximum may be `-∞`, before anything has been taken in. -/
def Accumulation.Ready (v : ℕ → Value 𝕜) : Accumulation → Prop
  | sum acc _ => ∃ x : 𝕜, v acc = .fp x
  | softmax m l acc _ => ∃ st : SoftmaxState 𝕜, st.Settled ∧
      v m = .fp st.m ∧ v l = .fp st.l ∧ v acc = .fp st.acc

/-! ## Loops -/

/-- The loads of the loop that a contraction may stream. -/
def Func.FloatLoad (F : Func) (blocks : List ℕ) (x : ℕ) : Prop :=
  ∃ b ∈ blocks, ∃ I ∈ F.body b, I.id = x ∧ I.op = .load ∧ I.ty = .floatingPoint

omit [LinearOrder 𝕜] in
/-- What the instructions give, where the loads of the loop may read any number and the scores may be
    anything. -/
def Func.Free (F : Func) (blocks : List ℕ) (K : List Accumulation) (Φ : Arith 𝕜) (id : ℕ) (_ : Opcode)
    (vs : List (Value 𝕜)) (v : Value 𝕜) : Prop :=
  Φ.may id vs v ∨ (F.FloatLoad blocks id ∧ ∃ x : 𝕜, v = .fp x) ∨
    ((∃ a ∈ K, id ∈ a.scores) ∧ ∃ x, v = .fp x)

/-- The accumulators of the loop follow the accumulations `K`, whatever its loads read and whatever its
    scores are; an iteration enters no block twice. -/
structure IsStreamLoop (F : Func) (L : ℕ) (blocks : List ℕ) (Φ : Arith 𝕜) (K : List Accumulation) :
    Prop where
  nodup : ∀ path, F.Round L blocks path → path.Nodup
  phis : ∀ a ∈ K, ∀ x ∈ a.phis, ∃ I ∈ F.body L, I.id = x ∧ I.op = .phi
  accumulators : ∀ x, F.Accumulator L blocks x → ∃ a ∈ K, x ∈ a.phis
  follows : ∀ path b ρ, F.Round L blocks path → path.getLast? = some b →
    F.Solves Φ.const (F.Free blocks K Φ) path ρ → ∀ a ∈ K,
      a.Follows exp (fun x => ∃ c ∈ path, x ∈ F.ids c) ρ (F.nextValue Φ.const ρ b)

omit [LinearOrder 𝕜] in
/-- A canonical induction variable: it is 0 where the loop is entered, and it counts the iterations modulo
    `2 ^ width`. -/
structure CountsUp (F : Func) (L : ℕ) (blocks : List ℕ) (Φ : Arith 𝕜) (K : List Accumulation)
    (iv width : ℕ) : Prop where
  start : ∀ q, q ∉ blocks → L ∈ F.cfg.succ q → ∃ x, (∀ P, x.All P) ∧ Φ.const x = .int 0 ∧
    (F.instr iv).bind (fun I => I.getIncomingValueForBlock q) = some x
  step : ∀ path b ρ k, F.Round L blocks path → path.getLast? = some b →
    F.Solves Φ.const (F.Free blocks K Φ) path ρ → ρ iv = .int k →
      F.nextValue Φ.const ρ b iv = some (.int ((k + 1) % 2 ^ width))

/-! ## Dropped iterations -/

variable {exp} {ran : ℕ → Prop} {ρ v : ℕ → Value 𝕜} {next : ℕ → Option (Value 𝕜)} {a : Accumulation}
  {covers : ℕ → Operand → Prop}

/-- **An iteration that sees a covered load as 0 and a covered score as `-∞` leaves the accumulators as
    they are.** -/
theorem Accumulation.Follows.eq_of_dropped (hexp : ExpLaws exp) (h : a.Follows exp ran ρ next)
    (hready : a.Ready ρ) (hcov : a.Covered covers)
    (hzero : ∀ Ld, covers Ld .fpZero → ran Ld → ρ Ld = .fp (0 : 𝕜))
    (hbot : ∀ s, covers s .fpNegInf → ran s → ρ s = .fp ⊥) : ∀ x ∈ a.phis, next x = some (ρ x) := by
  cases a with
  | sum acc terms =>
      obtain ⟨weighted, hterms, hnext⟩ := h
      obtain ⟨x, hx⟩ := hready
      intro y hy
      rw [List.mem_singleton.1 hy, hnext x hx, hx]
      -- every term is 0
      suffices hsum : ∀ l : List (𝕜 × 𝕜), (∀ t ∈ l, t.1 = 0) → l.foldl contractStep x = x by
        rw [hsum]
        intro u hu
        obtain ⟨t, ht, rfl⟩ := List.mem_map.1 hu
        obtain ⟨hmem, hran⟩ := hterms t ht
        obtain ⟨Ld, hLd, hcover⟩ := hcov t.1 hmem
        refine List.prod_eq_zero (List.mem_map.2 ⟨Ld, hLd, ?_⟩)
        rw [hzero Ld hcover (hran Ld hLd)]
        rfl
      intro l hl
      induction l with
      | nil => rfl
      | cons t l ih =>
          have ht : t = (0, t.2) := Prod.ext (hl t (List.mem_cons_self ..)) rfl
          rw [List.foldl_cons, ht, contractStep_zero]
          exact ih fun t' ht' => hl t' (List.mem_cons_of_mem t ht')
  | softmax m l acc scores =>
      obtain ⟨tokens, htokens, hnext⟩ := h
      obtain ⟨st, hst, hm, hl, hacc⟩ := hready
      have hsame : (tokens.map fun t => ((ρ t.1).score, t.2)).foldl (softmaxStep exp) st = st := by
        refine hst.foldl_bot hexp fun u hu => ?_
        obtain ⟨t, ht, rfl⟩ := List.mem_map.1 hu
        obtain ⟨hmem, hran⟩ := htokens t ht
        show (ρ t.1).score = ⊥
        rw [hbot t.1 (hcov t.1 hmem) hran]
        rfl
      obtain ⟨hm', hl', hacc'⟩ := hnext st hm hl hacc
      rw [hsame] at hm' hl' hacc'
      intro x hx
      simp only [phis, List.mem_cons, List.not_mem_nil, or_false] at hx
      rcases hx with rfl | rfl | rfl
      · rw [hm', hm]
      · rw [hl', hl]
      · rw [hacc', hacc]

omit [LinearOrder 𝕜] in
theorem Accumulation.Ready.congr (h : a.Ready ρ) (hv : ∀ x ∈ a.phis, v x = ρ x) : a.Ready v := by
  cases a with
  | sum acc terms =>
      obtain ⟨x, hx⟩ := h
      exact ⟨x, (hv acc (List.mem_singleton_self acc)).trans hx⟩
  | softmax m l acc scores =>
      obtain ⟨st, hst, hm, hl, hacc⟩ := h
      exact ⟨st, hst, (hv m (by simp [phis])).trans hm, (hv l (by simp [phis])).trans hl,
        (hv acc (by simp [phis])).trans hacc⟩

/-- An iteration keeps the accumulators ready. -/
theorem Accumulation.Follows.ready (hexp : ExpLaws exp) (h : a.Follows exp ran ρ next)
    (hready : a.Ready ρ) (hv : ∀ x ∈ a.phis, ∀ y, next x = some y → v x = y) : a.Ready v := by
  cases a with
  | sum acc terms =>
      obtain ⟨weighted, -, hnext⟩ := h
      obtain ⟨x, hx⟩ := hready
      exact ⟨_, hv acc (List.mem_singleton_self acc) _ (hnext x hx)⟩
  | softmax m l acc scores =>
      obtain ⟨tokens, -, hnext⟩ := h
      obtain ⟨st, hst, hm, hl, hacc⟩ := hready
      obtain ⟨hm', hl', hacc'⟩ := hnext st hm hl hacc
      exact ⟨_, hst.foldl hexp _, hv m (by simp [phis]) _ hm', hv l (by simp [phis]) _ hl',
        hv acc (by simp [phis]) _ hacc'⟩

end

end SchedPass
