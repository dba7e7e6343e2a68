import SchedPass.Weave.Builder

set_option autoImplicit false

/-! # Running emitted code

What a builder puts in front of an instruction is run on the way from where the instruction stood to where
it stands. A `Stretch` says so of every function in which the code is found, whatever has been put behind
it since; so stretches can follow one another (`Stretch.trans`) and stand under a condition
(`Stretch.underIf`). -/

namespace SchedPass

open Func

/-! ## Threads in the middle of a block -/

section

variable {V E U : Type} (D : String → Option Code) (J : Meaning V E) (hw : Coords) (note : E → Option U)
  (fr : Frame V)

/-- The activation, with another function in its code. -/
def Frame.within (G : Func) : Frame V := { fr with code := { fr.code with func := G } }

/-- A thread that has the instructions `rest` of block `b` ahead gets to where it has the instructions
    `rest'` of `b'` ahead. Of the accesses on its way, `us` are noted. -/
def Frame.Gets (us : List U) (b : ℕ) (rest : List Instr) (vals : ℕ → V) (b' : ℕ) (rest' : List Instr)
    (vals' : ℕ → V) : Prop :=
  ∀ vals₀ prev h, ∃ k vals₀' prev' h', h'.filterMap note = h.filterMap note ++ us ∧ ∀ n,
    resume D J hw (n + k) fr vals₀ prev b rest vals h
      = resume D J hw n fr vals₀' prev' b' rest' vals' h'

/-- The values after the PHIs of a block that is entered from `q`. -/
def Frame.enter (q : ℕ) (phis : List Instr) (vals : ℕ → V) : ℕ → V :=
  phis.foldl (fun w P => Function.update w P.id (fr.phiValue J vals (some q) P)) vals

variable {D J hw note fr} {us us' : List U} {b b' b'' c : ℕ} {rest rest' rest'' phis : List Instr}
  {vals vals' vals'' : ℕ → V} {I : Instr}

theorem Frame.Gets.refl : fr.Gets D J hw note [] b rest vals b rest vals :=
  fun vals₀ prev h => ⟨0, vals₀, prev, h, (List.append_nil _).symm, fun _ => rfl⟩

theorem Frame.Gets.trans (h : fr.Gets D J hw note us b rest vals b' rest' vals')
    (h' : fr.Gets D J hw note us' b' rest' vals' b'' rest'' vals'') :
    fr.Gets D J hw note (us ++ us') b rest vals b'' rest'' vals'' := by
  intro vals₀ prev hist
  obtain ⟨k, vals₁, prev₁, hist₁, hus, hrun⟩ := h vals₀ prev hist
  obtain ⟨k', vals₂, prev₂, hist₂, hus', hrun'⟩ := h' vals₁ prev₁ hist₁
  refine ⟨k' + k, vals₂, prev₂, hist₂, by rw [hus', hus, List.append_assoc], fun n => ?_⟩
  rw [← Nat.add_assoc, hrun, hrun']

theorem Frame.gets_value (hphi : I.op ≠ .phi) (hterm : I.op ≠ .terminator) {v : V}
    (hval : ∀ h, ∃ h', h'.filterMap note = h.filterMap note ++ us ∧ ∀ n,
      fr.value D J hw (J.call D hw n) I (I.args.map (fr.eval J vals)) h = (some v, h')) :
    fr.Gets D J hw note us b (I :: rest) vals b rest (Function.update vals I.id v) := by
  intro vals₀ prev h
  obtain ⟨h', hus, hval⟩ := hval h
  refine ⟨0, vals₀, prev, h', hus, fun n => ?_⟩
  rw [Nat.add_zero, resume_value hphi hterm, hval]
  rfl

theorem resume_phis {n : ℕ} {vals₀ : ℕ → V} {prev : Option ℕ} {h : List E}
    (hphis : ∀ P ∈ phis, P.op = .phi) :
    resume D J hw n fr vals₀ prev b (phis ++ rest) vals h = resume D J hw n fr vals₀ prev b rest
      (phis.foldl (fun w P => Function.update w P.id (fr.phiValue J vals₀ prev P)) vals) h := by
  induction phis generalizing vals with
  | nil => rfl
  | cons P phis ih =>
      obtain ⟨hP, hphis⟩ := List.forall_mem_cons.1 hphis
      rw [List.cons_append, resume_phi hP, ih hphis, List.foldl_cons]

/-- A jump, and the PHIs of the block that is entered. -/
theorem Frame.gets_jump {T : Instr} (hT : T.op = .terminator)
    (hc : (fr.code.func.cfg.succ b)[J.branch fr.code.name T.id (T.args.map (fr.eval J vals))]? = some c)
    (hbody : fr.code.func.body c = phis ++ rest') (hphis : ∀ P ∈ phis, P.op = .phi) :
    fr.Gets D J hw note [] b (T :: rest) vals c rest' (fr.enter J b phis vals) := by
  intro vals₀ prev h
  refine ⟨1, vals, some b, h, (List.append_nil _).symm, fun n => ?_⟩
  rw [resume_terminator hT, hc]
  show run D J hw (n + 1) fr vals (some b) c h = _
  rw [run_succ, hbody, resume_phis hphis]
  rfl

/-- The PHIs give nothing to what they do not compute. -/
theorem Frame.enter_of_notMem {q v : ℕ} (h : v ∉ phis.map Instr.id) :
    fr.enter J q phis vals v = vals v := by
  unfold Frame.enter
  generalize vals = w at *
  suffices ∀ u : ℕ → V, phis.foldl
      (fun u P => Function.update u P.id (fr.phiValue J w (some q) P)) u v = u v from this w
  induction phis with
  | nil => exact fun _ => rfl
  | cons P phis ih =>
      intro u
      rw [List.map_cons, List.mem_cons, not_or] at h
      rw [List.foldl_cons, ih h.2, Function.update_of_ne h.1]

end

/-! ## What is in front of an instruction -/

/-- Code was put in front of `v`, which stood behind `l` in block `b` and stands behind `l'` in `b'`. The
    rest of the function is as it was, but that PHIs that named `b` name what `f` says. -/
structure Func.Laid (F F' : Func) (v b : ℕ) (l : List Instr) (b' : ℕ) (l' : List Instr) (f : ℕ → ℕ) :
    Prop where
  wellFormed : F'.WellFormed
  next_le : F.next ≤ F'.next
  blocks_subset : F.blocks ⊆ F'.blocks
  spot : ∃ I post, F.At v b l I post ∧ F'.At v b' l' (I.rename f) (post.map (Instr.rename f))
  block : b' = b ∨ b' ∉ F.blocks
  succ_eq : F'.cfg.succ b' = F.cfg.succ b
  body_eq : ∀ a ∈ F.blocks, a ≠ b → F'.body a = (F.body a).map (Instr.rename f)
  succ_of_ne : ∀ a ∈ F.blocks, a ≠ b → F'.cfg.succ a = F.cfg.succ a
  name_eq : ∀ a ∈ F.blocks, a ≠ b → f a = a

/-- The blocks of `S` are in `G` as they are in `F`, up to the point behind `l` in block `b`, where `G` has
    `rest`. PHIs that name `b` may name another block in `G`. -/
structure Func.Shows (F G : Func) (S : ℕ → Prop) (b : ℕ) (l rest : List Instr) (g : ℕ → ℕ) : Prop where
  body_eq : ∀ a, S a → a ≠ b → G.body a = (F.body a).map (Instr.rename g)
  succ_eq : ∀ a, S a → a ≠ b → G.cfg.succ a = F.cfg.succ a
  name_eq : ∀ a, S a → a ≠ b → g a = a
  last_eq : G.body b = l.map (Instr.rename g) ++ rest

/-- The blocks with the code: the one where it begins, and the new ones. -/
def Func.Laying (F F' : Func) (b a : ℕ) : Prop := a = b ∨ a ∈ F'.blocks ∧ a ∉ F.blocks

section

variable {V E U : Type} (D : String → Option Code) (J : Meaning V E) (hw : Coords) (note : E → Option U)
  (fr : Frame V)

/-- The code that was put in front of `v` is run from where `v` stood to where it stands, in every function
    that has the code. It leaves the old values alone and makes the accesses `us`. -/
structure Stretch (F F' : Func) (v b : ℕ) (l : List Instr) (b' : ℕ) (l' : List Instr) (f : ℕ → ℕ)
    (vals vals' : ℕ → V) (us : List U) : Prop extends F.Laid F' v b l b' l' f where
  same : SameOld F.next vals vals'
  gets : ∀ G g rest, F'.Shows G (F.Laying F' b) b' l' rest g → ∃ rest₀,
    G.body b = l.map (Instr.rename (g ∘ f)) ++ rest₀ ∧
      (fr.within G).Gets D J hw note us b rest₀ vals b' rest vals'

variable {D J hw note fr} {F F₁ F₂ F' : Func} {v b b₁ b₂ : ℕ} {l l₁ l₂ post : List Instr} {I : Instr}
  {f f₁ f₂ : ℕ → ℕ} {vals vals₁ vals₂ : ℕ → V} {us us₁ us₂ : List U}

theorem Func.Laid.mem_blocks (h : F.Laid F₁ v b l b₁ l₁ f) (hF : F.WellFormed) : b ∈ F.blocks := by
  obtain ⟨I, post, hat, -⟩ := h.spot
  exact hat.mem_blocks hF

theorem Func.Laid.laying (h : F.Laid F₁ v b l b₁ l₁ f) : F.Laying F₁ b b₁ := by
  obtain ⟨I, post, -, hat⟩ := h.spot
  exact h.block.imp_right fun hnot => ⟨hat.mem_blocks h.wellFormed, hnot⟩

theorem Func.Laid.trans (h : F.Laid F₁ v b l b₁ l₁ f₁) (h' : F₁.Laid F₂ v b₁ l₁ b₂ l₂ f₂) :
    F.Laid F₂ v b l b₂ l₂ (f₂ ∘ f₁) := by
  have hne : ∀ a ∈ F.blocks, a ≠ b → a ≠ b₁ := by
    rintro a ha hab rfl
    exact h.block.elim hab (absurd ha)
  refine ⟨h'.wellFormed, h.next_le.trans h'.next_le,
    List.Subset.trans h.blocks_subset h'.blocks_subset, ?_, ?_,
    h'.succ_eq.trans h.succ_eq, fun a ha hab => ?_, fun a ha hab => ?_, fun a ha hab => ?_⟩
  · obtain ⟨I, post, hat, hat₁⟩ := h.spot
    obtain ⟨I', post', hat', hat₂⟩ := h'.spot
    obtain ⟨-, -, rfl, rfl⟩ := hat₁.unique h.wellFormed hat'
    rw [Instr.rename_rename, map_rename_rename] at hat₂
    exact ⟨I, post, hat, hat₂⟩
  · rcases h'.block with rfl | hnot
    · exact h.block
    · exact Or.inr fun hmem => hnot (h.blocks_subset hmem)
  · rw [h'.body_eq a (h.blocks_subset ha) (hne a ha hab), h.body_eq a ha hab, map_rename_rename]
  · rw [h'.succ_of_ne a (h.blocks_subset ha) (hne a ha hab), h.succ_of_ne a ha hab]
  · rw [Function.comp_apply, h.name_eq a ha hab, h'.name_eq a (h.blocks_subset ha) (hne a ha hab)]

/-- Where the later code is, the earlier is. -/
theorem Func.Laid.shows (h : F.Laid F₁ v b l b₁ l₁ f₁) (h' : F₁.Laid F₂ v b₁ l₁ b₂ l₂ f₂)
    (hF : F.WellFormed) {G : Func} {rest rest₁ : List Instr} {g : ℕ → ℕ}
    (hG : F₂.Shows G (F.Laying F₂ b) b₂ l₂ rest g)
    (hlast : G.body b₁ = l₁.map (Instr.rename (g ∘ f₂)) ++ rest₁) :
    F₁.Shows G (F.Laying F₁ b) b₁ l₁ rest₁ (g ∘ f₂) := by
  have hmem : ∀ a, F.Laying F₁ b a → a ∈ F₁.blocks := by
    rintro a (rfl | ha)
    · exact h.blocks_subset (h.mem_blocks hF)
    · exact ha.1
  have hlay : ∀ a, F.Laying F₁ b a → F.Laying F₂ b a := fun a ha =>
    ha.imp_right fun ha => ⟨h'.blocks_subset ha.1, ha.2⟩
  have hne : ∀ a, F.Laying F₁ b a → a ≠ b₁ → a ≠ b₂ := by
    rintro a ha hab rfl
    exact h'.block.elim hab (absurd (hmem a ha))
  refine ⟨fun a ha hab => ?_, fun a ha hab => ?_, fun a ha hab => ?_, hlast⟩
  · rw [hG.body_eq a (hlay a ha) (hne a ha hab), h'.body_eq a (hmem a ha) hab, map_rename_rename]
  · rw [hG.succ_eq a (hlay a ha) (hne a ha hab), h'.succ_of_ne a (hmem a ha) hab]
  · rw [Function.comp_apply, h'.name_eq a (hmem a ha) hab, hG.name_eq a (hlay a ha) (hne a ha hab)]

/-- **One stretch behind the other.** -/
theorem Stretch.trans (h : Stretch D J hw note fr F F₁ v b l b₁ l₁ f₁ vals vals₁ us₁)
    (h' : Stretch D J hw note fr F₁ F₂ v b₁ l₁ b₂ l₂ f₂ vals₁ vals₂ us₂) (hF : F.WellFormed) :
    Stretch D J hw note fr F F₂ v b l b₂ l₂ (f₂ ∘ f₁) vals vals₂ (us₁ ++ us₂) := by
  refine ⟨h.toLaid.trans h'.toLaid, fun w hw => ?_, fun G g rest hG => ?_⟩
  · rw [h'.same w (hw.trans_le h.next_le), h.same w hw]
  · have hG' : F₂.Shows G (F₁.Laying F₂ b₁) b₂ l₂ rest g := by
      have hlay : ∀ a, F₁.Laying F₂ b₁ a → F.Laying F₂ b a := by
        rintro a (rfl | ha)
        · exact h.laying.imp_right fun ha => ⟨h'.blocks_subset ha.1, ha.2⟩
        · exact Or.inr ⟨ha.1, fun hmem => ha.2 (h.blocks_subset hmem)⟩
      exact ⟨fun a ha => hG.body_eq a (hlay a ha), fun a ha => hG.succ_eq a (hlay a ha),
        fun a ha => hG.name_eq a (hlay a ha), hG.last_eq⟩
    obtain ⟨rest₁, hlast, hgets'⟩ := h'.gets G g rest hG'
    obtain ⟨rest₀, hfirst, hgets⟩ := h.gets G _ rest₁ (h.shows h'.toLaid hF hG hlast)
    exact ⟨rest₀, hfirst, hgets.trans hgets'⟩

theorem map_rename_eq_self (l : List Instr) : l.map (Instr.rename fun b => b) = l := by
  conv_rhs => rw [← List.map_id l]
  exact List.map_congr_left fun I _ => Instr.rename_eq_self I

/-- In the function that the code was put into, a thread runs it. -/
theorem Stretch.runs (h : Stretch D J hw note fr F F' v b l b₁ l₁ f vals vals₁ us) :
    ∃ I post, F'.At v b₁ l₁ I post ∧ (fr.within F').Gets D J hw note us b ((F'.body b).drop l.length) vals
      b₁ (I :: post) vals₁ := by
  obtain ⟨I, post, -, hat⟩ := h.spot
  refine ⟨_, _, hat, ?_⟩
  obtain ⟨rest, hbody, hgets⟩ := h.gets F' (fun b => b) _
    ⟨fun a _ _ => (map_rename_eq_self _).symm, fun _ _ _ => rfl, fun _ _ _ => rfl, by
      rw [map_rename_eq_self, hat.body_eq]⟩
  have hlen : (l.map (Instr.rename ((fun b => b) ∘ f))).length = l.length := List.length_map _
  rwa [hbody, ← hlen, List.drop_left]

/-! ## One instruction -/

theorem Instr.rename_of_incoming {I : Instr} (f : ℕ → ℕ) (h : ∀ p ∈ I.incoming, f p.1 = p.1) :
    I.rename f = I := by
  have hmap : I.incoming.map (fun p => (f p.1, p.2)) = I.incoming := by
    conv_rhs => rw [← List.map_id I.incoming]
    exact List.map_congr_left fun p hp => Prod.ext (h p hp) rfl
  unfold rename
  rw [hmap]

/-- No code. -/
theorem Stretch.refl (hF : F.WellFormed) (hat : F.At v b l I post) :
    Stretch D J hw note fr F F v b l b l (fun b => b) vals vals [] := by
  refine ⟨⟨hF, le_rfl, List.Subset.refl _, ⟨I, post, hat, ?_⟩, Or.inl rfl, rfl, fun a _ _ => ?_,
    fun _ _ _ => rfl, fun _ _ _ => rfl⟩, fun _ _ => rfl, fun G g rest hG => ?_⟩
  · rw [Instr.rename_eq_self, map_rename_eq_self]
    exact hat
  · rw [map_rename_eq_self]
  · exact ⟨rest, hG.last_eq, .refl⟩

/-- One instruction. -/
theorem Stretch.insertAt (hF : F.WellFormed) (hat : F.At v b l I post) {K : Instr} (hK : F.Fresh [K])
    {x : V} (hval : ∀ h, ∃ h', h'.filterMap note = h.filterMap note ++ us ∧ ∀ n,
      fr.value D J hw (J.call D hw n) K (K.args.map (fr.eval J vals)) h = (some x, h')) :
    Stretch D J hw note fr F (F.insertAt b l.length [K]) v b l b (l ++ [K]) (fun b => b) vals
      (Function.update vals F.next x) us := by
  have hpoint := hat.point hF
  have hid : K.id = F.next := by simpa using hK.ids_eq
  have hbody : (F.insertAt b l.length [K]).body b = l ++ [K] ++ I :: post := insertAt_body hat.body_eq
  refine ⟨⟨hF.insertAt hK hpoint.body_eq hpoint.not_phi hpoint.ne_nil, Nat.le_add_right ..,
    List.Subset.refl _, ⟨I, post, hat, ?_⟩, Or.inl rfl, rfl, fun a _ hab => ?_, fun _ _ _ => rfl,
    fun _ _ _ => rfl⟩, fun w hw => ?_, fun G g rest hG => ⟨K :: rest, ?_, ?_⟩⟩
  · rw [Instr.rename_eq_self, map_rename_eq_self]
    exact ⟨hbody, hat.id_eq, hat.not_phi⟩
  · rw [map_rename_eq_self, insertAt_body_ne hab]
  · rw [Function.update_of_ne (by omega)]
  · have hKg : K.rename g = K :=
      Instr.rename_of_incoming g (by simp [hK.incoming_eq K (List.mem_singleton_self K)])
    rw [hG.last_eq, List.map_append, List.map_singleton, hKg, List.append_assoc]
    rfl
  · have hgets : (fr.within G).Gets D J hw note us b (K :: rest) vals b rest
        (Function.update vals K.id x) :=
      Frame.gets_value (hK.not_phi K (List.mem_singleton_self K))
        (hK.not_terminator K (List.mem_singleton_self K)) hval
    rwa [hid] at hgets

/-! ## Code under a condition -/

/-- PHIs were put at the head of a block. -/
structure Func.Joined (F F' : Func) (b : ℕ) (phis : List Instr) : Prop where
  wellFormed : F'.WellFormed
  next_le : F.next ≤ F'.next
  cfg_eq : F'.cfg = F.cfg
  blocks_eq : F'.blocks = F.blocks
  body_of_ne : ∀ a, a ≠ b → F'.body a = F.body a
  body_eq : F'.body b = phis ++ F.body b
  phi : ∀ P ∈ phis, P.op = .phi ∧ F.next ≤ P.id

theorem Func.Joined.nil (hF : F.WellFormed) : F.Joined F b [] :=
  ⟨hF, le_rfl, rfl, rfl, fun _ _ => rfl, rfl, by simp⟩

/-- One more PHI, where there were none. -/
theorem Func.Joined.insertPHI {phis : List Instr} (h : F.Joined F' b phis) (hb : b ∈ F.blocks)
    (hnot : ∀ K ∈ F.body b, K.op ≠ .phi) (ty : Ty) (incoming : List (ℕ × Operand)) :
    F.Joined (F'.insertPHI b ty incoming) b (phis ++ [⟨F'.next, .phi, ty, [], incoming⟩]) := by
  have hphis : (F'.body b).takeWhile (fun K => K.op == .phi) = phis := by
    rw [h.body_eq, List.takeWhile_append_of_pos fun P hP => by simp [(h.phi P hP).1]]
    have hnil : (F.body b).takeWhile (fun K => K.op == .phi) = [] := by
      cases hbody : F.body b with
      | nil => rfl
      | cons K rest =>
          rw [List.takeWhile_cons_of_neg (by simpa using hnot K (by simp [hbody]))]
    rw [hnil, List.append_nil]
  refine ⟨wellFormed_insertPHI h.wellFormed (h.blocks_eq ▸ hb) ty incoming,
    h.next_le.trans (Nat.le_add_right ..), h.cfg_eq, h.blocks_eq, fun a hab => ?_, ?_, fun P hP => ?_⟩
  · rw [← h.body_of_ne a hab]
    exact insertAt_body_ne hab
  · rw [Func.insertPHI, hphis, insertAt_body h.body_eq]
  · rcases List.mem_append.1 hP with hP | hP
    · exact h.phi P hP
    · rw [List.mem_singleton.1 hP]
      exact ⟨rfl, h.next_le⟩

section

variable {F₃ : Func} {t : ℕ} {lt phis : List Instr} {Cond : Operand} {c : Bool}

/-- What becomes of the function when code is put under a condition. -/
theorem Func.Laid.underIf (hF : F.WellFormed) (hat : F.At v b l I post)
    (h : (F.splitIf b l.length Cond []).Laid F₂ (F.next + 1) F.thenBlock [] t lt f₂)
    (hjoin : F₂.Joined F₃ F.tailBlock phis) :
    F.Laid F₃ v b l F.tailBlock phis (f₂ ∘ F.tailName b) := by
  have hb := hat.mem_blocks hF
  have hpoint := hat.point hF
  have hsub : ∀ a ∈ F.blocks, a ∈ (F.splitIf b l.length Cond []).blocks := fun a ha =>
    mem_splitIf_blocks.2 (Or.inl ha)
  have htail : F.tailBlock ∈ (F.splitIf b l.length Cond []).blocks :=
    mem_splitIf_blocks.2 (Or.inr (Or.inr rfl))
  have hthen : ∀ a ∈ F.blocks, a ≠ F.thenBlock ∧ a ≠ F.tailBlock := fun a ha =>
    ⟨fun h => thenBlock_not_mem (h ▸ ha), fun h => tailBlock_not_mem (h ▸ ha)⟩
  have hbody : F₂.body F.tailBlock = ((I :: post).map (Instr.rename (F.tailName b))).map
      (Instr.rename f₂) := by
    rw [h.body_eq _ htail thenBlock_ne_tailBlock.symm, splitIf_body_tail hat.body_eq]
  refine ⟨hjoin.wellFormed, ?_, ?_, ⟨I, post, hat, ?_, hat.id_eq, hat.not_phi⟩,
    Or.inr tailBlock_not_mem, ?_, fun a ha hab => ?_, fun a ha hab => ?_, fun a ha hab => ?_⟩
  · exact (Nat.le_add_right F.next 2).trans (h.next_le.trans hjoin.next_le)
  · rw [hjoin.blocks_eq]
    exact List.Subset.trans hsub h.blocks_subset
  · rw [hjoin.body_eq, hbody, map_rename_rename, List.map_cons]
  · rw [hjoin.cfg_eq, h.succ_of_ne _ htail thenBlock_ne_tailBlock.symm]
    exact Cfg.succ_splitIf_tail
  · rw [hjoin.body_of_ne a (hthen a ha).2, h.body_eq a (hsub a ha) (hthen a ha).1,
      splitIf_body_of_ne hab (hthen a ha).1 (hthen a ha).2, map_rename_rename]
  · rw [hjoin.cfg_eq, h.succ_of_ne a (hsub a ha) (hthen a ha).1]
    exact Cfg.succ_splitIf_of_ne (hF.newBlocks hb) ha hab
  · rw [Function.comp_apply, tailName, Function.update_of_ne hab, id_eq,
      h.name_eq a (hsub a ha) (hthen a ha).1]

/-- The block at whose end the code under the condition is left is none of the function's. -/
theorem Func.Laid.then_notMem (h : (F.splitIf b l.length Cond []).Laid F₂ v F.thenBlock [] t lt f₂) :
    t ∉ F.blocks ∧ t ≠ F.tailBlock := by
  rcases h.block with rfl | hnot
  · exact ⟨thenBlock_not_mem, thenBlock_ne_tailBlock⟩
  · exact ⟨fun ht => hnot (mem_splitIf_blocks.2 (Or.inl ht)),
      fun ht => hnot (mem_splitIf_blocks.2 (Or.inr (Or.inr ht)))⟩

theorem Func.condBr_rename (f : ℕ → ℕ) : (F.condBr Cond []).rename f = F.condBr Cond [] :=
  Instr.rename_of_incoming f nofun

theorem Func.thenBr_rename (f : ℕ → ℕ) : (F.thenBr []).rename f = F.thenBr [] :=
  Instr.rename_of_incoming f nofun

/-- The code under the condition is left by its branch. -/
theorem Func.Laid.then_body_eq (h : (F.splitIf b l.length Cond []).Laid F₂ (F.next + 1) F.thenBlock [] t
    lt f₂) (hF₁ : (F.splitIf b l.length Cond []).WellFormed) : F₂.body t = lt ++ [F.thenBr []] := by
  have hthen : (F.splitIf b l.length Cond []).At (F.next + 1) F.thenBlock [] (F.thenBr []) [] := by
    refine ⟨splitIf_body_then.trans ?_, rfl, nofun⟩
    rw [List.nil_append, List.map_singleton, thenBr_rename]
  obtain ⟨K, post', hat, hat'⟩ := h.spot
  obtain ⟨-, -, rfl, rfl⟩ := hat.unique hF₁ hthen
  rw [thenBr_rename] at hat'
  exact hat'.body_eq

/-- The PHIs give nothing to the old values. -/
theorem Func.Joined.enter_old (h : F.Joined F' b phis) {q w : ℕ} (hw : w < F.next) (vals : ℕ → V) :
    fr.enter J q phis vals w = vals w := by
  refine Frame.enter_of_notMem fun hmem => ?_
  obtain ⟨P, hP, rfl⟩ := List.mem_map.1 hmem
  exact absurd (h.phi P hP).2 (Nat.not_le_of_lt hw)

/-- The last block of the code under the condition is among the new ones. -/
theorem Func.Laid.laying_then (h : (F.splitIf b l.length Cond []).Laid F₂ v F.thenBlock [] t lt f₂)
    (hjoin : F₂.Joined F₃ F.tailBlock phis) : F.Laying F₃ b t := by
  obtain ⟨K, post', -, hat'⟩ := h.spot
  exact Or.inr ⟨hjoin.blocks_eq ▸ hat'.mem_blocks h.wellFormed, h.then_notMem.1⟩

section

variable {G : Func} {g : ℕ → ℕ} {rest : List Instr}
  (h : (F.splitIf b l.length Cond []).Laid F₂ (F.next + 1) F.thenBlock [] t lt f₂)
  (hjoin : F₂.Joined F₃ F.tailBlock phis) (hG : F₃.Shows G (F.Laying F₃ b) F.tailBlock phis rest g)

include h hjoin hG

/-- The code under the condition is there. -/
theorem Func.Shows.under (hF₁ : (F.splitIf b l.length Cond []).WellFormed) :
    F₂.Shows G ((F.splitIf b l.length Cond []).Laying F₂ F.thenBlock) t lt [F.thenBr []] g := by
  have hlay : ∀ a, (F.splitIf b l.length Cond []).Laying F₂ F.thenBlock a →
      F.Laying F₃ b a ∧ a ≠ F.tailBlock := by
    rintro a (rfl | ⟨ha, hnot⟩)
    · have hmem := h.blocks_subset (mem_splitIf_blocks.2 (Or.inr (Or.inl rfl)))
      exact ⟨Or.inr ⟨hjoin.blocks_eq ▸ hmem, thenBlock_not_mem⟩, thenBlock_ne_tailBlock⟩
    · exact ⟨Or.inr ⟨hjoin.blocks_eq ▸ ha, fun hmem => hnot (mem_splitIf_blocks.2 (Or.inl hmem))⟩,
        fun heq => hnot (mem_splitIf_blocks.2 (Or.inr (Or.inr heq)))⟩
  refine ⟨fun a ha _ => ?_, fun a ha _ => ?_, fun a ha _ => ?_, ?_⟩
  · rw [hG.body_eq a (hlay a ha).1 (hlay a ha).2, hjoin.body_of_ne a (hlay a ha).2]
  · rw [hG.succ_eq a (hlay a ha).1 (hlay a ha).2, hjoin.cfg_eq]
  · exact hG.name_eq a (hlay a ha).1 (hlay a ha).2
  · rw [hG.body_eq t (h.laying_then hjoin) h.then_notMem.2,
      hjoin.body_of_ne t h.then_notMem.2, h.then_body_eq hF₁, List.map_append, List.map_singleton,
      thenBr_rename]

variable (hF : F.WellFormed) (hat : F.At v b l I post)

include hF hat

/-- The block that is split is left by the branch on the condition. -/
theorem Func.Shows.head : G.body b = l.map (Instr.rename (g ∘ f₂ ∘ F.tailName b)) ++ [F.condBr Cond []] ∧
    G.cfg.succ b = [F.thenBlock, F.tailBlock] := by
  have hb := hat.mem_blocks hF
  have hbtail : b ≠ F.tailBlock := fun heq => tailBlock_not_mem (heq ▸ hb)
  have hbthen : b ≠ F.thenBlock := fun heq => thenBlock_not_mem (heq ▸ hb)
  have hb₁ : b ∈ (F.splitIf b l.length Cond []).blocks := mem_splitIf_blocks.2 (Or.inl hb)
  constructor
  · rw [hG.body_eq b (Or.inl rfl) hbtail, hjoin.body_of_ne b hbtail, h.body_eq b hb₁ hbthen,
      splitIf_body_self hb hat.body_eq]
    simp only [map_rename_rename, List.map_append, List.map_singleton, condBr_rename]
  · rw [hG.succ_eq b (Or.inl rfl) hbtail, hjoin.cfg_eq, h.succ_of_ne b hb₁ hbthen]
    exact Cfg.succ_splitIf_self (hF.newBlocks hb)

/-- The code under the condition leads to the tail. -/
theorem Func.Shows.then_succ : G.cfg.succ t = [F.tailBlock] := by
  rw [hG.succ_eq t (h.laying_then hjoin) h.then_notMem.2, hjoin.cfg_eq, h.succ_eq]
  exact Cfg.succ_splitIf_then (hF.newBlocks (hat.mem_blocks hF))

/-- The tail begins with the PHIs, where these name the two blocks before it. -/
theorem Func.Shows.tail (hin : ∀ P ∈ phis, ∀ p ∈ P.incoming, p.1 = t ∨ p.1 = b) :
    G.body F.tailBlock = phis ++ rest := by
  have hbtail : b ≠ F.tailBlock := fun heq => tailBlock_not_mem (heq ▸ hat.mem_blocks hF)
  have hphis : phis.map (Instr.rename g) = phis := by
    conv_rhs => rw [← List.map_id phis]
    refine List.map_congr_left fun P hP => Instr.rename_of_incoming g fun p hp => ?_
    rcases hin P hP p hp with heq | heq <;> rw [heq]
    · exact hG.name_eq t (h.laying_then hjoin) h.then_notMem.2
    · exact hG.name_eq b (Or.inl rfl) hbtail
  rw [hG.last_eq, hphis]

end

/-- **Code under a condition, and the PHIs behind it.** -/
theorem Stretch.underIf (hF : F.WellFormed) (hat : F.At v b l I post)
    (hcond : J.branch fr.code.name F.next [fr.eval J vals Cond] = if c then 0 else 1)
    (hbr : J.branch fr.code.name (F.next + 1) [] = 0)
    (h : Stretch D J hw note fr (F.splitIf b l.length Cond []) F₂ (F.next + 1) F.thenBlock [] t lt f₂
      vals vals₂ us)
    (hjoin : F₂.Joined F₃ F.tailBlock phis)
    (hin : ∀ P ∈ phis, ∀ p ∈ P.incoming, p.1 = t ∨ p.1 = b) :
    Stretch D J hw note fr F F₃ v b l F.tailBlock phis (f₂ ∘ F.tailName b) vals
      (if c then fr.enter J t phis vals₂ else fr.enter J b phis vals) (if c then us else []) := by
  have hF₁ : (F.splitIf b l.length Cond []).WellFormed := hF.splitIf (hat.point hF) fresh_nil
  refine ⟨h.toLaid.underIf hF hat hjoin, fun w hw => ?_, fun G g rest hG => ?_⟩
  · have hw₁ : w < F.next + 2 := Nat.lt_add_right 2 hw
    have hw₂ : w < F₂.next := Nat.lt_of_lt_of_le hw₁ h.next_le
    split_ifs
    · rw [hjoin.enter_old hw₂, h.same w hw₁]
    · exact hjoin.enter_old hw₂ vals
  obtain ⟨hhead, hsucc⟩ := hG.head h.toLaid hjoin hF hat
  have htail := hG.tail h.toLaid hjoin hF hat hin
  have hjump : ∀ a, [F.thenBlock, F.tailBlock][if c then 0 else 1]? = some a →
      ((fr.within G).code.func.cfg.succ b)[J.branch (fr.within G).code.name (F.condBr Cond []).id
        ((F.condBr Cond []).args.map ((fr.within G).eval J vals))]? = some a := by
    intro a ha
    show (G.cfg.succ b)[J.branch fr.code.name F.next [fr.eval J vals Cond]]? = some a
    rw [hsucc, hcond, ha]
  refine ⟨[F.condBr Cond []], hhead, ?_⟩
  cases c with
  | false => exact Frame.gets_jump rfl (hjump _ rfl) htail fun P hP => (hjoin.phi P hP).1
  | true =>
      -- to the new block, through it, and on to the tail
      obtain ⟨rest₁, hfirst, hgets⟩ := h.gets G g _ (hG.under h.toLaid hjoin hF₁)
      have henter : (fr.within G).Gets D J hw note [] b [F.condBr Cond []] vals F.thenBlock rest₁ vals :=
        Frame.gets_jump rfl (hjump _ rfl) hfirst nofun
      have hleave : ((fr.within G).code.func.cfg.succ t)[J.branch (fr.within G).code.name
          (F.thenBr []).id ((F.thenBr []).args.map ((fr.within G).eval J vals₂))]?
            = some F.tailBlock := by
        show (G.cfg.succ t)[J.branch fr.code.name (F.next + 1) []]? = _
        rw [hG.then_succ h.toLaid hjoin hF hat, hbr]
        rfl
      have hout : (fr.within G).Gets D J hw note [] t [F.thenBr []] vals₂ F.tailBlock rest
          (fr.enter J t phis vals₂) :=
        Frame.gets_jump rfl hleave htail fun P hP => (hjoin.phi P hP).1
      simpa using (henter.trans hgets).trans hout

end

end

end SchedPass
