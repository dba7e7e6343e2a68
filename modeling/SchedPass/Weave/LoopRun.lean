import SchedPass.Weave.Instrument

set_option autoImplicit false

/-! # Iterations of a loop

A thread goes around a loop: it leaves the header, passes through blocks of the loop and comes back. In a
valid function, where no block comes twice, the values it comes back with solve the equations of all the
instructions on its way (`Around.solves`): an operand has been computed when it is read, and what is
computed later does not change it. -/

namespace SchedPass

/-! ## Equations -/

section

variable {V : Type}

/-- The value of an operand, where `const` gives the operands that are no instruction's. -/
def Operand.look (const : Operand → V) (vals : ℕ → V) : Operand → V
  | .inst v => vals v
  | x => const x

@[simp] theorem Operand.look_inst (const : Operand → V) (vals : ℕ → V) (v : ℕ) :
    (Operand.inst v).look const vals = vals v := rfl

theorem Operand.look_congr {const : Operand → V} {vals vals' : ℕ → V} {x : Operand}
    (h : x.All fun v => vals v = vals' v) : x.look const vals = x.look const vals' := by
  cases x with
  | inst v => exact h
  | arg n => rfl
  | fpZero => rfl
  | fpNegInf => rfl
  | otherConst n => rfl

def Instr.getIncomingValueForBlock (I : Instr) (q : ℕ) : Option Operand :=
  (I.incoming.find? fun p => p.1 == q).map Prod.snd

/-- The values solve the equations of the blocks along the path, where `R` says what an instruction may
    make of its operands. The PHIs of the first block are free. -/
structure Func.Solves (G : Func) (const : Operand → V) (R : ℕ → Opcode → List V → V → Prop)
    (path : List ℕ) (ρ : ℕ → V) : Prop where
  value : ∀ b ∈ path, ∀ I ∈ G.body b, I.op ≠ .phi → I.op ≠ .terminator →
    R I.id I.op (I.args.map (Operand.look const ρ)) (ρ I.id)
  phi : ∀ p q b r, path = p ++ q :: b :: r → ∀ I ∈ G.body b, I.op = .phi →
    ∀ x, I.getIncomingValueForBlock q = some x → ρ I.id = x.look const ρ

theorem Func.Solves.mono {G : Func} {const : Operand → V} {R R' : ℕ → Opcode → List V → V → Prop}
    {path : List ℕ} {ρ : ℕ → V} (h : G.Solves const R path ρ)
    (hR : ∀ b ∈ path, ∀ I ∈ G.body b, ∀ vs v, R I.id I.op vs v → R' I.id I.op vs v) :
    G.Solves const R' path ρ :=
  ⟨fun b hb I hI hphi hop => hR b hb I hI _ _ (h.value b hb I hI hphi hop), h.phi⟩

/-- What a PHI of the header becomes where the loop is gone around again from block `b`. -/
def Func.nextValue (G : Func) (const : Operand → V) (ρ : ℕ → V) (b x : ℕ) : Option V :=
  ((G.instr x).bind fun I => I.getIncomingValueForBlock b).map (Operand.look const ρ)

end

/-- A way around the loop: from the header through blocks of the loop, and back to the header. -/
structure Func.Round (G : Func) (L : ℕ) (blocks path : List ℕ) : Prop where
  head : path.head? = some L
  mem : ∀ b ∈ path, b ∈ blocks
  walk : path.IsChain fun b c => c ∈ G.cfg.succ b
  once : L ∉ path.tail
  back : ∀ b, path.getLast? = some b → L ∈ G.cfg.succ b

theorem Func.Round.congr {G G' : Func} {L : ℕ} {blocks path : List ℕ} (h : G.Round L blocks path)
    (hcfg : G'.cfg = G.cfg) : G'.Round L blocks path :=
  ⟨h.head, h.mem, hcfg ▸ h.walk, h.once, hcfg ▸ h.back⟩

/-- A loop of one block is gone around through this block. -/
theorem Func.Round.eq_singleton {G : Func} {L : ℕ} {path : List ℕ} (h : G.Round L [L] path) :
    path = [L] := by
  cases path with
  | nil => cases h.head
  | cons b rest =>
      obtain rfl := Option.some.inj h.head
      cases rest with
      | nil => rfl
      | cons c rest =>
          have hc := List.mem_singleton.1 (h.mem c (by simp))
          exact absurd (hc ▸ List.mem_cons_self ..) h.once

theorem Func.Round.mem_head {G : Func} {L : ℕ} {blocks path : List ℕ} (h : G.Round L blocks path) :
    L ∈ path :=
  List.mem_of_mem_head? h.head

/-! ## Threads -/

/-- A thread at the start of a block. -/
structure At (V E : Type) where
  vals : ℕ → V
  prev : Option ℕ
  block : ℕ
  hist : List E

section

variable {V E : Type} (D : String → Option Code) (J : Meaning V E) (hw : Coords) (fr : Frame V)

/-- What an operand is worth that no instruction computes. -/
def Frame.const (x : Operand) : V := fr.eval J (fun _ => J.undef) x

/-- Running the block of `s` ends with a jump to the block of `s'`. -/
def Frame.Jumps (s s' : At V E) : Prop :=
  s'.prev = some s.block ∧
    ∃ n, runBlock D J hw (J.call D hw n) fr s.vals s.prev s.block (fr.code.func.body s.block) s.vals
      s.hist = (.jump s'.block s'.vals, s'.hist)

def BlockEnd.isJump : BlockEnd V → Bool
  | .jump _ _ => true
  | _ => false

/-- The block of `s`, if it calls nothing. -/
def Frame.runBlockAt (s : At V E) : BlockEnd V × List E :=
  runBlock D J hw (J.call D hw 0) fr s.vals s.prev s.block (fr.code.func.body s.block) s.vals s.hist

/-- From `s` the blocks of the path are run, to the end of the last one. -/
inductive Frame.Around : List ℕ → At V E → At V E → Prop
  | nil (s : At V E) : Around [] s s
  | cons {path : List ℕ} {s s' s'' : At V E} (h : fr.Jumps D J hw s s') (h' : Around path s' s'') :
      Around (s.block :: path) s s''

/-- A run of the loop with header `L`: it is entered from outside, and iteration `i` goes from `s i` around
    the loop to `s (i + 1)`. The last iteration may leave the loop instead of going back. -/
structure Frame.LoopRun (L : ℕ) (blocks : List ℕ) (s : ℕ → At V E) (trips : ℕ) : Prop where
  outside : ∃ q, (s 0).prev = some q ∧ q ∉ blocks ∧ L ∈ fr.code.func.cfg.succ q
  iteration : ∀ i < trips, ∃ path, fr.code.func.Round L blocks path ∧
    Frame.Around D J hw fr path (s i) (s (i + 1))

/-- What the instructions of the function give is as `R` says. -/
def Frame.Respects (R : ℕ → Opcode → List V → V → Prop) : Prop :=
  ∀ b, ∀ I ∈ fr.code.func.body b, I.op ≠ .phi → I.op ≠ .terminator → ∀ n vs h v h',
    fr.value D J hw (J.call D hw n) I vs h = (some v, h') → R I.id I.op vs v

/-- What a PHI becomes where the thread is at the start of its block. -/
def Frame.entering (s : At V E) (x : ℕ) : V :=
  match fr.code.func.instr x with
  | some I => fr.phiValue J s.vals s.prev I
  | none => J.undef

variable {D J hw fr}

theorem Frame.entering_eq (hG : fr.code.func.WellFormed) {b : ℕ} {I : Instr}
    (hI : I ∈ fr.code.func.body b) (s : At V E) :
    fr.entering J s I.id = fr.phiValue J s.vals s.prev I := by
  rw [Frame.entering, hG.instr_eq hI]

theorem Frame.eval_eq (vals : ℕ → V) (x : Operand) : fr.eval J vals x = x.look (fr.const J) vals := by
  cases x <;> rfl

theorem Frame.phiValue_some {vals : ℕ → V} {q : ℕ} {I : Instr} {x : Operand}
    (h : I.getIncomingValueForBlock q = some x) :
    fr.phiValue J vals (some q) I = x.look (fr.const J) vals := by
  obtain ⟨p, hp, rfl⟩ := Option.map_eq_some_iff.1 h
  simp only [Frame.phiValue, Option.bind_some, hp, Frame.eval_eq]

/-- Where a thread without calls is behind `i` blocks. -/
def Frame.blockStart (D : String → Option Code) (J : Meaning V E) (hw : Coords) (fr : Frame V) :
    ℕ → At V E
  | 0 => ⟨fun _ => J.undef, none, fr.code.func.cfg.entry, []⟩
  | i + 1 =>
      match fr.runBlockAt D J hw (fr.blockStart D J hw i) with
      | (.jump c vals, h) => ⟨vals, some (fr.blockStart D J hw i).block, c, h⟩
      | _ => fr.blockStart D J hw i

theorem Frame.jumps_blockStart {i : ℕ}
    (h : (fr.runBlockAt D J hw (fr.blockStart D J hw i)).1.isJump = true) :
    fr.Jumps D J hw (fr.blockStart D J hw i) (fr.blockStart D J hw (i + 1)) := by
  rw [Frame.blockStart]
  generalize hr : fr.runBlockAt D J hw (fr.blockStart D J hw i) = r at h ⊢
  obtain ⟨e, k⟩ := r
  cases e with
  | jump c vals => exact ⟨rfl, 0, hr⟩
  | ret v => cases h
  | cut => cases h

/-- A jump is what `run` goes on with. -/
theorem Frame.Jumps.run_succ {s s' : At V E} (h : fr.Jumps D J hw s s') :
    ∃ n, run D J hw (n + 1) fr s.vals s.prev s.block s.hist =
      run D J hw n fr s'.vals s'.prev s'.block s'.hist := by
  obtain ⟨hprev, n, hrun⟩ := h
  refine ⟨n, ?_⟩
  rw [SchedPass.run_succ, resume, hrun, hprev]

/-! ## One block -/

/-- What is known behind a block that ends with a jump: the values that its instructions do not compute
    are as before; a PHI has read the values at the start of the block; and any other instruction has
    read values that only itself and the instructions behind it may have changed since. -/
theorem runBlock_jump {call : Code → List V → List E → Option V × List E} {vals₀ vals vals' : ℕ → V}
    {prev : Option ℕ} {b c : ℕ} {l : List Instr} {h h' : List E} (hids : (l.map Instr.id).Nodup)
    (hrun : runBlock D J hw call fr vals₀ prev b l vals h = (.jump c vals', h')) :
    (∀ x, x ∉ l.map Instr.id → vals' x = vals x) ∧ c ∈ fr.code.func.cfg.succ b ∧
      ∀ l₁ I l₂, l = l₁ ++ I :: l₂ → (∀ K ∈ l₁, K.op ≠ .terminator) →
        (I.op = .phi → vals' I.id = fr.phiValue J vals₀ prev I) ∧
        (I.op ≠ .phi → I.op ≠ .terminator → ∃ w k k',
          fr.value D J hw call I (I.args.map (fr.eval J w)) k = (some (vals' I.id), k') ∧
            ∀ x, x ∉ (I :: l₂).map Instr.id → w x = vals' x) := by
  induction l generalizing vals h with
  | nil => simp [runBlock] at hrun
  | cons K rest ih =>
      obtain ⟨hK, hrest⟩ := List.nodup_cons.1 hids
      -- what is known behind the rest of the block, which starts with `v` for `K`
      have hcons : ∀ v k, runBlock D J hw call fr vals₀ prev b rest (Function.update vals K.id v) k
            = (.jump c vals', h') →
          (∀ x, x ∉ (K :: rest).map Instr.id → vals' x = vals x) ∧ vals' K.id = v := by
        intro v k hk
        obtain ⟨hframe, -⟩ := ih hrest hk
        refine ⟨fun x hx => ?_, ?_⟩
        · rw [List.map_cons, List.mem_cons, not_or] at hx
          rw [hframe x hx.2, Function.update_of_ne hx.1]
        · rw [hframe K.id hK, Function.update_self]
      by_cases hphi : K.op = .phi
      · rw [runBlock_phi hphi] at hrun
        obtain ⟨hframe, hval⟩ := hcons _ _ hrun
        obtain ⟨-, hsucc, hsplit⟩ := ih hrest hrun
        refine ⟨hframe, hsucc, fun l₁ I l₂ hl hterm => ?_⟩
        cases l₁ with
        | nil =>
            obtain ⟨rfl, rfl⟩ := List.cons.inj hl
            exact ⟨fun _ => hval, fun hnot => absurd hphi hnot⟩
        | cons K' l₁ =>
            obtain ⟨rfl, rfl⟩ := List.cons.inj hl
            exact hsplit l₁ I l₂ rfl fun M hM => hterm M (List.mem_cons_of_mem K hM)
      · by_cases hterm : K.op = .terminator
        · rw [runBlock_terminator hterm, Frame.leave] at hrun
          split at hrun
          · next d hd =>
              simp only [Prod.mk.injEq, BlockEnd.jump.injEq] at hrun
              obtain ⟨⟨rfl, rfl⟩, -⟩ := hrun
              refine ⟨fun _ _ => rfl, List.mem_of_getElem? hd, fun l₁ I l₂ hl hl₁ => ?_⟩
              cases l₁ with
              | nil =>
                  obtain ⟨rfl, rfl⟩ := List.cons.inj hl
                  exact ⟨fun h => absurd h hphi, fun _ h => absurd hterm h⟩
              | cons K' l₁ =>
                  obtain ⟨rfl, -⟩ := List.cons.inj hl
                  exact absurd hterm (hl₁ K (List.mem_cons_self ..))
          · cases hrun
        · rw [runBlock_value hphi hterm] at hrun
          split at hrun
          · next v k hv =>
              obtain ⟨hframe, hval⟩ := hcons _ _ hrun
              obtain ⟨-, hsucc, hsplit⟩ := ih hrest hrun
              refine ⟨hframe, hsucc, fun l₁ I l₂ hl hl₁ => ?_⟩
              cases l₁ with
              | nil =>
                  obtain ⟨rfl, rfl⟩ := List.cons.inj hl
                  refine ⟨fun h => absurd h hphi, fun _ _ => ⟨vals, h, k, ?_, fun x hx => ?_⟩⟩
                  · rw [hval, hv]
                  · exact (hframe x hx).symm
              | cons K' l₁ =>
                  obtain ⟨rfl, rfl⟩ := List.cons.inj hl
                  exact hsplit l₁ I l₂ rfl fun M hM => hl₁ M (List.mem_cons_of_mem K hM)
          · cases hrun

/-! ## Around the loop -/

namespace Frame.Around

variable {path p q : List ℕ} {s s' : At V E} {b x : ℕ} {I : Instr}

theorem append_iff : fr.Around D J hw (p ++ q) s s' ↔
    ∃ t, fr.Around D J hw p s t ∧ fr.Around D J hw q t s' := by
  induction p generalizing s with
  | nil =>
      refine ⟨fun h => ⟨s, .nil s, h⟩, ?_⟩
      rintro ⟨t, hp, hq⟩
      cases hp
      exact hq
  | cons b p ih =>
      constructor
      · intro h
        rw [List.cons_append] at h
        cases h with
        | cons hjump hrest =>
            obtain ⟨t, hp, hq⟩ := ih.1 hrest
            exact ⟨t, .cons hjump hp, hq⟩
      · rintro ⟨t, hp, hq⟩
        cases hp with
        | cons hjump hp => exact .cons hjump (ih.2 ⟨t, hp, hq⟩)

theorem cons_iff : fr.Around D J hw (b :: p) s s' ↔
    s.block = b ∧ ∃ t, fr.Jumps D J hw s t ∧ fr.Around D J hw p t s' := by
  constructor
  · intro h
    cases h with
    | cons hjump hrest => exact ⟨rfl, _, hjump, hrest⟩
  · rintro ⟨rfl, t, hjump, hrest⟩
    exact .cons hjump hrest

theorem prev_eq (h : fr.Around D J hw path s s') (hlast : path.getLast? = some b) :
    s'.prev = some b := by
  induction h with
  | nil => cases hlast
  | cons hjump hrest ih =>
      cases hrest with
      | nil => rw [hjump.1, ← hlast, List.getLast?_singleton]
      | cons hjump' hrest' => exact ih (by rwa [List.getLast?_cons_cons] at hlast)

variable (hG : fr.code.func.WellFormed)

include hG

/-- What the blocks on the way do not compute stays. -/
theorem frame (h : fr.Around D J hw path s s') (hx : ∀ b ∈ path, x ∉ fr.code.func.ids b) :
    s'.vals x = s.vals x := by
  induction h with
  | nil s => rfl
  | cons hjump _ ih =>
      obtain ⟨-, n, hrun⟩ := hjump
      rw [ih fun b hb => hx b (List.mem_cons_of_mem _ hb)]
      exact (runBlock_jump (hG.ids_nodup _) hrun).1 x (hx _ (List.mem_cons_self ..))

theorem walk (h : fr.Around D J hw path s s') :
    (path ++ [s'.block]).IsChain fun b c => c ∈ fr.code.func.cfg.succ b := by
  induction h with
  | nil s => exact List.isChain_singleton _
  | cons hjump hrest ih =>
      obtain ⟨-, n, hrun⟩ := hjump
      obtain ⟨-, hsucc, -⟩ := runBlock_jump (hG.ids_nodup _) hrun
      cases hrest with
      | nil => exact List.isChain_pair.2 hsucc
      | cons => exact List.isChain_cons_cons.2 ⟨hsucc, ih⟩

/-- A PHI of the first block has its value from where the block was entered. -/
theorem head_phi (h : fr.Around D J hw path s s') (hhead : path.head? = some b) (hnodup : path.Nodup)
    (hI : I ∈ fr.code.func.body b) (hop : I.op = .phi) :
    s'.vals I.id = fr.phiValue J s.vals s.prev I := by
  cases h with
  | nil => cases hhead
  | @cons path s t s' hjump hrest =>
      obtain rfl := Option.some.inj hhead
      obtain ⟨-, n, hrun⟩ := hjump
      obtain ⟨l₁, l₂, hbody⟩ := List.append_of_mem hI
      have hphis := hG.phis_first s.block
      rw [hbody, List.pairwise_append] at hphis
      have hterm : ∀ K ∈ l₁, K.op ≠ .terminator := by
        intro K hK hKop
        have hKphi := hphis.2.2 K hK I (List.mem_cons_self ..) hop
        rw [hKop] at hKphi
        cases hKphi
      rw [hrest.frame hG fun c hc hIc => (List.nodup_cons.1 hnodup).1 ?_]
      · exact ((runBlock_jump (hG.ids_nodup _) hrun).2.2 l₁ I l₂ hbody hterm).1 hop
      · exact hG.ids_block _ _ _ (List.mem_map_of_mem hI) hIc ▸ hc

/-- Any other instruction has read values that only itself and what is behind it have changed since. -/
theorem value (h : fr.Around D J hw (p ++ b :: q) s s') (hnodup : (p ++ b :: q).Nodup)
    {l₁ l₂ : List Instr} (hbody : fr.code.func.body b = l₁ ++ I :: l₂) (hphi : I.op ≠ .phi)
    (hop : I.op ≠ .terminator) : ∃ n w k k',
      fr.value D J hw (J.call D hw n) I (I.args.map (fr.eval J w)) k = (some (s'.vals I.id), k') ∧
        ∀ x, x ∉ (I :: l₂).map Instr.id → (∀ c ∈ q, x ∉ fr.code.func.ids c) → w x = s'.vals x := by
  obtain ⟨t, -, hrest⟩ := append_iff.1 h
  obtain ⟨rfl, u, ⟨-, n, hrun⟩, hrest⟩ := cons_iff.1 hrest
  have hI : I ∈ fr.code.func.body t.block := hbody ▸ List.mem_append_right l₁ (List.mem_cons_self ..)
  have hq : t.block ∉ q := (List.nodup_cons.1 (List.nodup_append.1 hnodup).2.1).1
  have hterm : ∀ K ∈ l₁, K.op ≠ .terminator := by
    intro K hK hKop
    obtain ⟨m₁, m₂, rfl⟩ := List.append_of_mem hK
    rw [List.append_assoc, List.cons_append] at hbody
    have hnil := hG.eq_nil_of_terminator hbody hKop
    simp at hnil
  obtain ⟨-, -, hsplit⟩ := runBlock_jump (hG.ids_nodup _) hrun
  obtain ⟨w, k, k', hval, hw'⟩ := (hsplit l₁ I l₂ hbody hterm).2 hphi hop
  have hid : ∀ c ∈ q, I.id ∉ fr.code.func.ids c := fun c hc hIc =>
    hq (hG.ids_block _ _ _ (List.mem_map_of_mem hI) hIc ▸ hc)
  refine ⟨n, w, k, k', ?_, fun x hx hxq => ?_⟩
  · rw [hrest.frame hG hid, hval]
  · rw [hw' x hx, hrest.frame hG hxq]

/-- A PHI of a later block has read values that only its own block and those behind it have changed
    since. -/
theorem inner_phi {a : ℕ} (h : fr.Around D J hw (p ++ a :: b :: q) s s')
    (hnodup : (p ++ a :: b :: q).Nodup) (hI : I ∈ fr.code.func.body b) (hop : I.op = .phi) : ∃ w,
      s'.vals I.id = fr.phiValue J w (some a) I ∧
        ∀ x, (∀ c ∈ b :: q, x ∉ fr.code.func.ids c) → w x = s'.vals x := by
  obtain ⟨t, -, hrest⟩ := append_iff.1 h
  obtain ⟨rfl, u, ⟨hprev, -⟩, hrest⟩ := cons_iff.1 hrest
  have hbq := (List.nodup_cons.1 (List.nodup_append.1 hnodup).2.1).2
  refine ⟨u.vals, ?_, fun x hx => (hrest.frame hG hx).symm⟩
  rw [hrest.head_phi hG rfl hbq hI hop, hprev]

variable {L : ℕ} {R : ℕ → Opcode → List V → V → Prop}

/-- **The values behind a way around the loop solve the equations of its instructions.** The function is
    valid, its header is reachable and dominates the blocks on the way, and none of these comes twice. -/
theorem solves (hV : fr.code.func.Valid) (hL : fr.code.func.cfg.Reachable L)
    (hdom : ∀ b ∈ path, b ≠ L → fr.code.func.cfg.StrictDom L b) (hR : fr.Respects D J hw R)
    (h : fr.Around D J hw path s s') (hhead : path.head? = some L) (hnodup : path.Nodup) :
    fr.code.func.Solves (fr.const J) R path s'.vals := by
  have hwalk : path.IsChain fun b c => c ∈ fr.code.func.cfg.succ b :=
    (h.walk hG).left_of_append
  -- what is available at a point of the way is computed in no later block
  have hlater : ∀ {p b q pre v}, path = p ++ b :: q → pre ⊆ fr.code.func.ids b →
      fr.code.func.Available b pre v → ∀ c ∈ q, v ∉ fr.code.func.ids c := by
    rintro p b q pre v rfl hpre hv c hc hvc
    rcases hv with hv | ⟨a, ha, hstrict⟩
    · have hbc := hG.ids_block b c v (hpre hv) hvc
      exact (List.nodup_cons.1 (List.nodup_append.1 hnodup).2.1).1 (hbc ▸ hc)
    · obtain rfl := hG.ids_block a c v ha hvc
      have hmem : a ∈ p ++ b :: q := List.mem_append_right p (List.mem_cons_of_mem b hc)
      exact Cfg.not_strictDom_of_later hL (hdom a hmem) hwalk hhead hnodup hc hstrict
  have hself : ∀ b ∈ path, ¬ fr.code.func.cfg.StrictDom b b := by
    intro b hb
    obtain ⟨rest, rfl⟩ : ∃ rest, path = L :: rest := by
      cases path with
      | nil => cases hhead
      | cons c rest => exact ⟨rest, by rw [Option.some.inj hhead]⟩
    exact (hL.walk hwalk hb).not_strictDom_self
  constructor
  · intro b hb I hI hphi hop
    obtain ⟨p, q, rfl⟩ := List.append_of_mem hb
    obtain ⟨l₁, l₂, hbody⟩ := List.append_of_mem hI
    obtain ⟨n, w, k, k', hval, hw⟩ := h.value hG hnodup hbody hphi hop
    have hargs : I.args.map (fr.eval J w) = I.args.map (Operand.look (fr.const J) s'.vals) := by
      refine List.map_congr_left fun x hx => ?_
      rw [Frame.eval_eq]
      refine Operand.look_congr ?_
      cases x with
      | inst v =>
          have hv := hV.available hbody hx
          refine hw v (fun hmem => ?_) (hlater rfl ?_ hv)
          · -- the operand is computed ahead of the instruction
            have hids := hG.ids_nodup b
            rw [Func.ids, hbody, List.map_append] at hids
            rcases hv with hv | ⟨a, ha, hstrict⟩
            · exact (List.nodup_append.1 hids).2.2 v hv v hmem rfl
            · have hvb : v ∈ fr.code.func.ids b := by
                rw [Func.ids, hbody, List.map_append]
                exact List.mem_append_right _ hmem
              exact hself b hb (hG.ids_block a b v ha hvb ▸ hstrict)
          · rw [Func.ids, hbody, List.map_append]
            exact List.subset_append_left ..
      | _ => trivial
    rw [← hargs]
    exact hR b I hI hphi hop n _ _ _ _ hval
  · rintro p a b q rfl I hI hop x hx
    obtain ⟨w, hval, hw⟩ := h.inner_phi hG hnodup hI hop
    rw [hval, Frame.phiValue_some hx]
    refine Operand.look_congr ?_
    cases x with
    | inst v =>
        obtain ⟨r, hr, hrx⟩ := Option.map_eq_some_iff.1 hx
        obtain ⟨l₁, l₂, hbody⟩ := List.append_of_mem hI
        have hok := hV b
        rw [hbody, Func.bodyOk_append] at hok
        have hv := hok.2.1.2 r (List.mem_of_find?_eq_some hr)
        rw [hrx, show r.1 = a by simpa using List.find?_some hr] at hv
        exact hw v (hlater rfl (List.Subset.refl _) hv)
    | _ => trivial

end Frame.Around

end

end SchedPass
