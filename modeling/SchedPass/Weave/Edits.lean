import SchedPass.Weave.Split

set_option autoImplicit false

/-! # Edits that instrument

New instructions before an instruction of a function, and a new block under a condition before one:
after any number of these the function is well formed and valid, and it is an instrumented version of
the one that was first (`Edited.insertAt`, `Edited.splitIf`). -/

namespace SchedPass

open Func

variable {F₀ F : Func} {n a b v : ℕ} {S : Pieces} {l post new thenBody : List Instr} {Cond : Operand}

/-! ## Old instructions -/

theorem oldOnes_append (l l' : List Instr) : oldOnes n (l ++ l') = oldOnes n l ++ oldOnes n l' :=
  List.filter_append ..

theorem oldOnes_map_rename (f : ℕ → ℕ) (l : List Instr) :
    oldOnes n (l.map (Instr.rename f)) = (oldOnes n l).map (Instr.rename f) := by
  simp only [oldOnes, List.filter_map]
  rfl

theorem oldOnes_eq_nil (h : ∀ I ∈ l, n ≤ I.id) : oldOnes n l = [] :=
  List.filter_eq_nil_iff.2 fun I hI => by simpa using h I hI

theorem oldOnes_fresh (hn : n ≤ F.next) (hnew : F.Fresh new) : oldOnes n new = [] :=
  oldOnes_eq_nil fun _ hI => hn.trans (hnew.id_mem hI).1

theorem Instr.rename_rename (f g : ℕ → ℕ) (I : Instr) : (I.rename f).rename g = I.rename (g ∘ f) := by
  simp [Instr.rename]

theorem map_rename_rename (f g : ℕ → ℕ) (l : List Instr) :
    (l.map (Instr.rename f)).map (Instr.rename g) = l.map (Instr.rename (g ∘ f)) := by
  simp [Function.comp_def, Instr.rename_rename]

/-- Nothing was done to the function yet. -/
theorem Instr.rename_eq_self (I : Instr) : I.rename (fun b => b) = I := by
  simp [Instr.rename]

theorem instruments_refl (hF : F.WellFormed) :
    Instruments F F F.next ⟨fun b => b, fun b => b, fun _ => 0, F.body⟩ where
  entry_eq := rfl
  blocks_subset := List.Subset.refl _
  home_eq := fun _ _ => rfl
  rest_eq := fun _ _ => rfl
  home_mem := fun _ hb => hb
  suffix := fun _ _ => List.suffix_rfl
  not_phi := fun _ hb hnot => absurd hb hnot
  last_inj := fun _ _ _ _ h => h
  last_mem := fun _ hb => hb
  piece := by
    intro b hb
    obtain ⟨q, T, hq, hT, hqT⟩ := hF.terminated b hb
    have hid : ∀ I ∈ F.body b, I.id < F.next := fun I hI => hF.fresh b _ (List.mem_map_of_mem hI)
    refine .last q T hq hT hqT (hid T (hq ▸ List.mem_append_right _ (List.mem_singleton_self _))) ?_
      rfl rfl
    have hold : oldOnes F.next (F.body b) = F.body b :=
      List.filter_eq_self.2 fun I hI => by simpa using hid I hI
    have hrename : (F.body b).map (Instr.rename fun b => b) = F.body b :=
      (List.map_congr_left fun I _ => I.rename_eq_self).trans (List.map_id _)
    rw [hold]
    exact hrename.symm
  quiet := by
    intro b I hI hle
    have := hF.fresh b _ (List.mem_map_of_mem hI)
    omega

/-- The ids and the operands of a valid function. -/
theorem closed_of_valid (hF : F.WellFormed) (hvalid : F.Valid) (hphis : F.PhisName) :
    F.Closed F.next where
  entry_mem := hF.entry_mem
  succ_mem := hF.succ_mem
  id_lt := fun b I hI => hF.fresh b _ (List.mem_map_of_mem hI)
  args_lt := by
    intro b I hI x hx
    obtain ⟨l, post, hb⟩ := List.append_of_mem hI
    have hbody := hvalid b
    rw [hb, bodyOk_append] at hbody
    refine (hbody.2.1.1 x hx).mono fun v hv => ?_
    rcases hv with hv | ⟨d, hv, -⟩
    · exact hF.fresh b v (by
        rw [ids, hb, List.map_append]
        exact List.mem_append_left _ (by simpa using hv))
    · exact hF.fresh d v hv
  incoming_lt := by
    intro b I hI p hp
    refine ⟨hphis b I hI p hp, ?_⟩
    obtain ⟨l, post, hb⟩ := List.append_of_mem hI
    have hbody := hvalid b
    rw [hb, bodyOk_append] at hbody
    refine (hbody.2.1.2 p hp).mono fun v hv => ?_
    rcases hv with hv | ⟨d, hv, -⟩
    · exact hF.fresh p.1 v hv
    · exact hF.fresh d v hv

/-! ## One edit -/

/-- A point of a block leaves the terminator behind it. -/
theorem split_terminated (hbody : F.body b = l ++ post) (hne : post ≠ []) {q : List Instr} {T : Instr}
    (hq : F.body b = q ++ [T]) : ∃ r, post = r ++ [T] ∧ q = l ++ r := by
  obtain ⟨r, U, rfl⟩ := (List.eq_nil_or_concat' post).resolve_left hne
  rw [hq, ← List.append_assoc] at hbody
  obtain ⟨rfl, hU⟩ := List.append_inj' hbody rfl
  obtain rfl := List.head_eq_of_cons_eq hU
  exact ⟨r, rfl, rfl⟩

theorem Instruments.insertAt (hS : Instruments F₀ F n S) (hbody : F.body b = l ++ post)
    (hne : post ≠ []) (hnew : ∀ I ∈ new, n ≤ I.id) (hplain : ∀ I ∈ new, I.op ≠ .terminator)
    (hquiet : ∀ I ∈ new, I.callsNothing = true) :
    Instruments F₀ (F.insertAt b l.length new) n S := by
  have hinsert : (F.insertAt b l.length new).body b = l ++ new ++ post := insertAt_body hbody
  have hterm : ∀ {r : List Instr}, (∀ I ∈ l ++ r, I.op ≠ .terminator) →
      ∀ I ∈ l ++ new ++ r, I.op ≠ .terminator := by
    intro r h I hI
    rcases List.mem_append.1 hI with hI | hI
    · rcases List.mem_append.1 hI with hI | hI
      · exact h I (List.mem_append_left r hI)
      · exact hplain I hI
    · exact h I (List.mem_append_right l hI)
  have hold : ∀ r, oldOnes n (l ++ new ++ r) = oldOnes n (l ++ r) := by
    intro r
    rw [oldOnes_append, oldOnes_append, oldOnes_eq_nil hnew, List.append_nil, oldOnes_append]
  refine { hS with piece := ?_, quiet := ?_ }
  · intro a ha
    by_cases hab : a = b
    · subst hab
      cases hS.piece a ha with
      | last q T hq hT hqT hid hrest hsucc hlast =>
          obtain ⟨r, rfl, rfl⟩ := split_terminated hbody hne hq
          refine .last (l ++ new ++ r) T (hinsert.trans (List.append_assoc ..).symm) hT (hterm hqT)
            hid ?_ hsucc hlast
          rw [hinsert, hold, ← hbody]
          exact hrest
      | inner q old T hq hT hqT hid hrest hsucc hways =>
          obtain ⟨r, rfl, rfl⟩ := split_terminated hbody hne hq
          exact .inner (l ++ new ++ r) old T (hinsert.trans (List.append_assoc ..).symm) hT
            (hterm hqT) hid (by rw [hold]; exact hrest) hsucc hways
    · have hsame : (F.insertAt b l.length new).body a = F.body a := insertAt_body_ne hab
      cases hS.piece a ha with
      | last q T hq hT hqT hid hrest hsucc hlast =>
          exact .last q T (hsame.trans hq) hT hqT hid (by rw [hsame]; exact hrest) hsucc hlast
      | inner q old T hq hT hqT hid hrest hsucc hways =>
          exact .inner q old T (hsame.trans hq) hT hqT hid hrest hsucc hways
  · intro a I hI hle
    rcases mem_insertAt hI with hI | ⟨-, hI⟩
    · exact hS.quiet a I hI hle
    · exact hquiet I hI

/-- The pieces after a split of block `b`, with the old instructions `skip` ahead of the point. -/
def Pieces.splitIf (S : Pieces) (F : Func) (b skip : ℕ) : Pieces where
  home := Function.update (Function.update S.home F.thenBlock (S.home b)) F.tailBlock (S.home b)
  last := F.tailName b ∘ S.last
  rank := Function.update (Function.update (fun a => 3 * S.rank a + 2) F.thenBlock
    (3 * S.rank b + 1)) F.tailBlock (3 * S.rank b)
  rest := Function.update (Function.update S.rest F.thenBlock ((S.rest b).drop skip)) F.tailBlock
    ((S.rest b).drop skip)

section

variable {k : ℕ}

theorem Pieces.splitIf_tail : (S.splitIf F b k).home F.tailBlock = S.home b ∧
    (S.splitIf F b k).rank F.tailBlock = 3 * S.rank b ∧
    (S.splitIf F b k).rest F.tailBlock = (S.rest b).drop k := by
  simp [splitIf]

theorem Pieces.splitIf_then : (S.splitIf F b k).home F.thenBlock = S.home b ∧
    (S.splitIf F b k).rank F.thenBlock = 3 * S.rank b + 1 ∧
    (S.splitIf F b k).rest F.thenBlock = (S.rest b).drop k := by
  have hne : F.thenBlock ≠ F.tailBlock := thenBlock_ne_tailBlock
  simp [splitIf, hne]

theorem Pieces.splitIf_of_mem (ha : a ∈ F.blocks) : (S.splitIf F b k).home a = S.home a ∧
    (S.splitIf F b k).rank a = 3 * S.rank a + 2 ∧ (S.splitIf F b k).rest a = S.rest a := by
  have hthen : a ≠ F.thenBlock := fun h => thenBlock_not_mem (h ▸ ha)
  have htail : a ≠ F.tailBlock := fun h => tailBlock_not_mem (h ▸ ha)
  simp [splitIf, hthen, htail]

/-- The two new blocks go on where the point is. -/
theorem Pieces.splitIf_new {c : ℕ} (hc : c = F.thenBlock ∨ c = F.tailBlock) :
    (S.splitIf F b k).home c = S.home b ∧ (S.splitIf F b k).rest c = (S.rest b).drop k := by
  rcases hc with rfl | rfl
  · exact ⟨splitIf_then.1, splitIf_then.2.2⟩
  · exact ⟨splitIf_tail.1, splitIf_tail.2.2⟩

theorem Pieces.splitIf_rank_le {R : ℕ} (hR : ∀ b, S.rank b ≤ R) (a : ℕ) :
    (S.splitIf F b k).rank a ≤ 3 * R + 2 := by
  have ha := hR a
  have hb := hR b
  simp only [splitIf, Function.update_apply]
  split_ifs <;> omega

end

/-- The old instructions ahead of a point. -/
def skipped (n : ℕ) (l : List Instr) : ℕ := (oldOnes n l).length

theorem oldOnes_rename_last {old : List Instr} (h : oldOnes n l = old.map (Instr.rename S.last))
    (skip : ℕ) : oldOnes n (l.map (Instr.rename (F.tailName b)))
      = old.map (Instr.rename (S.splitIf F b skip).last) := by
  rw [oldOnes_map_rename, h, map_rename_rename]
  rfl

/-- What a piece has yet to do, from the point on. -/
theorem Piece.rest_split (hpoint : F.Point b l post) (h : Piece F₀ F n S b) :
    ∃ old, oldOnes n l = old.map (Instr.rename S.last) ∧ old.length = skipped n l ∧
      S.rest b = old ++ (S.rest b).drop (skipped n l) := by
  have hlen : ∀ {old : List Instr}, oldOnes n l = old.map (Instr.rename S.last) →
      old.length = skipped n l := fun h => by rw [skipped, h, List.length_map]
  cases h with
  | last q T hq hT hqT hid hrest hsucc hlast =>
      rw [hpoint.body_eq, oldOnes_append] at hrest
      obtain ⟨old, old', hsplit, hold, -⟩ := List.map_eq_append_iff.1 hrest.symm
      refine ⟨old, hold.symm, hlen hold.symm, ?_⟩
      rw [hsplit, List.drop_left' (hlen hold.symm)]
  | inner q old T hq hT hqT hid hrest hsucc hways =>
      obtain ⟨c, hc⟩ : ∃ c, c ∈ F.cfg.succ b := by
        refine List.exists_mem_of_length_pos ?_
        rcases hways with h | h <;> omega
      obtain ⟨r, -, rfl⟩ := split_terminated hpoint.body_eq hpoint.ne_nil hq
      rw [oldOnes_append] at hrest
      obtain ⟨old, old', rfl, hold, -⟩ := List.map_eq_append_iff.1 hrest.symm
      refine ⟨old, hold.symm, hlen hold.symm, ?_⟩
      rw [(hsucc c hc).2.2.2.2, List.append_assoc, List.drop_left' (hlen hold.symm)]

theorem tailName_inj {c : ℕ} (ha : a ∈ F.blocks) (hc : c ∈ F.blocks)
    (h : F.tailName b a = F.tailName b c) : a = c := by
  have hne : ∀ {x}, x ∈ F.blocks → x ≠ F.tailBlock := fun hx h => tailBlock_not_mem (h ▸ hx)
  unfold tailName at h
  by_cases hab : a = b <;> by_cases hcb : c = b
  · rw [hab, hcb]
  · rw [hab, Function.update_self, Function.update_of_ne hcb, id_eq] at h
    exact absurd h.symm (hne hc)
  · rw [hcb, Function.update_self, Function.update_of_ne hab, id_eq] at h
    exact absurd h (hne ha)
  · rwa [Function.update_of_ne hab, Function.update_of_ne hcb, id_eq, id_eq] at h

theorem tailName_mem {skip : ℕ} (ha : a ∈ F.blocks) :
    F.tailName b a ∈ (F.splitIf b skip Cond thenBody).blocks := by
  rw [mem_splitIf_blocks, tailName]
  by_cases hab : a = b
  · rw [hab, Function.update_self]
    exact Or.inr (Or.inr rfl)
  · rw [Function.update_of_ne hab]
    exact Or.inl ha

theorem not_mem_of_new (hS : Instruments F₀ F n S) {c : ℕ} (hc : c = F.thenBlock ∨ c = F.tailBlock) :
    c ∉ F₀.blocks := by
  intro hmem
  have hF := hS.blocks_subset hmem
  rcases hc with rfl | rfl
  exacts [thenBlock_not_mem hF, tailBlock_not_mem hF]

section

variable (hF : F.WellFormed) (hpoint : F.Point b l post)

include hF hpoint

/-- A piece of another block stays one. -/
theorem Piece.splitIf_other {k : ℕ} (ha : a ∈ F.blocks) (hab : a ≠ b) (h : Piece F₀ F n S a) :
    Piece F₀ (F.splitIf b l.length Cond thenBody) n (S.splitIf F b k) a := by
  have hb := hpoint.mem_blocks hF
  have hbody : (F.splitIf b l.length Cond thenBody).body a
      = (F.body a).map (Instr.rename (F.tailName b)) :=
    splitIf_body_of_ne hab (fun h => thenBlock_not_mem (h ▸ ha)) fun h => tailBlock_not_mem (h ▸ ha)
  have hcfg : (F.splitIf b l.length Cond thenBody).cfg.succ a = F.cfg.succ a :=
    Cfg.succ_splitIf_of_ne (hF.newBlocks hb) ha hab
  obtain ⟨hhome, hrank, hrestEq⟩ := Pieces.splitIf_of_mem (S := S) (b := b) (k := k) ha
  have hterm : ∀ {q : List Instr}, (∀ I ∈ q, I.op ≠ .terminator) →
      ∀ I ∈ q.map (Instr.rename (F.tailName b)), I.op ≠ .terminator := by
    intro q hq I hI
    obtain ⟨K, hK, rfl⟩ := List.mem_map.1 hI
    exact hq K hK
  cases h with
  | last q T hq hT hqT hid hrest hsucc hlast =>
      refine .last (q.map (Instr.rename (F.tailName b))) (T.rename (F.tailName b)) ?_ hT
        (hterm hqT) hid ?_ ?_ ?_
      · rw [hbody, hq, List.map_append, List.map_singleton]
      · rw [hbody, hrestEq]
        exact oldOnes_rename_last hrest k
      · rw [hcfg, hhome]
        exact hsucc
      · rw [hhome]
        show F.tailName b (S.last (S.home a)) = a
        rw [hlast, tailName, Function.update_of_ne hab, id_eq]
  | inner q old T hq hT hqT hid hrest hsucc hways =>
      refine .inner (q.map (Instr.rename (F.tailName b))) old (T.rename (F.tailName b)) ?_ hT
        (hterm hqT) hid (oldOnes_rename_last hrest k) ?_ ?_
      · rw [hbody, hq, List.map_append, List.map_singleton]
      · rw [hcfg, hhome, hrank, hrestEq]
        intro c hc
        obtain ⟨hmem, hnot, hhomec, hrankc, hrestc⟩ := hsucc c hc
        obtain ⟨hhome', hrank', hrest'⟩ := Pieces.splitIf_of_mem (S := S) (b := b) (k := k) hmem
        rw [hhome', hrank', hrest']
        exact ⟨mem_splitIf_blocks.2 (Or.inl hmem), hnot, hhomec, by omega, hrestc⟩
      · rw [hcfg]
        exact hways

omit hF in
/-- The rest of the split block is a piece as the block was. -/
theorem Piece.splitIf_tail (h : Piece F₀ F n S b) :
    Piece F₀ (F.splitIf b l.length Cond thenBody) n (S.splitIf F b (skipped n l)) F.tailBlock := by
  have hbody : (F.splitIf b l.length Cond thenBody).body F.tailBlock
      = post.map (Instr.rename (F.tailName b)) := splitIf_body_tail hpoint.body_eq
  have hcfg : (F.splitIf b l.length Cond thenBody).cfg.succ F.tailBlock = F.cfg.succ b :=
    Cfg.succ_splitIf_tail
  obtain ⟨hhome, hrank, hrestEq⟩ := Pieces.splitIf_tail (S := S) (F := F) (b := b)
    (k := skipped n l)
  obtain ⟨old₀, hold₀, hlen, hsplit⟩ := h.rest_split hpoint
  have hterm : ∀ {r : List Instr}, (∀ I ∈ l ++ r, I.op ≠ .terminator) →
      ∀ I ∈ r.map (Instr.rename (F.tailName b)), I.op ≠ .terminator := by
    intro r hr I hI
    obtain ⟨K, hK, rfl⟩ := List.mem_map.1 hI
    exact hr K (List.mem_append_right l hK)
  cases h with
  | last q T hq hT hqT hid hrest hsucc hlast =>
      obtain ⟨r, rfl, rfl⟩ := split_terminated hpoint.body_eq hpoint.ne_nil hq
      refine .last (r.map (Instr.rename (F.tailName b))) (T.rename (F.tailName b)) ?_ hT
        (hterm hqT) hid ?_ ?_ ?_
      · rw [hbody, List.map_append, List.map_singleton]
      · rw [hbody, hrestEq]
        refine oldOnes_rename_last ?_ _
        rw [hpoint.body_eq, oldOnes_append, hsplit, List.map_append, hold₀] at hrest
        exact List.append_cancel_left hrest
      · rw [hcfg, hhome]
        exact hsucc
      · rw [hhome]
        show F.tailName b (S.last (S.home b)) = F.tailBlock
        rw [hlast, tailName, Function.update_self]
  | inner q old T hq hT hqT hid hrest hsucc hways =>
      obtain ⟨r, rfl, rfl⟩ := split_terminated hpoint.body_eq hpoint.ne_nil hq
      rw [oldOnes_append] at hrest
      obtain ⟨old₁, old₂, rfl, hold₁, hold₂⟩ := List.map_eq_append_iff.1 hrest.symm
      have hlen₁ : old₁.length = skipped n l := by
        rw [skipped, ← hold₁, List.length_map]
      refine .inner (r.map (Instr.rename (F.tailName b))) old₂ (T.rename (F.tailName b)) ?_ hT
        (hterm hqT) hid (oldOnes_rename_last hold₂.symm _) ?_ ?_
      · rw [hbody, List.map_append, List.map_singleton]
      · rw [hcfg, hhome, hrank, hrestEq]
        intro c hc
        obtain ⟨hmem, hnot, hhomec, hrankc, hrestc⟩ := hsucc c hc
        obtain ⟨hhome', hrank', hrest'⟩ := Pieces.splitIf_of_mem (S := S) (b := b)
          (k := skipped n l) hmem
        rw [hhome', hrank', hrest']
        refine ⟨mem_splitIf_blocks.2 (Or.inl hmem), hnot, hhomec, by omega, ?_⟩
        rw [hrestc, List.append_assoc, List.drop_left' hlen₁]
      · rw [hcfg]
        exact hways

variable (hS : Instruments F₀ F n S) (hn : n ≤ F.next) (hnew : F.Fresh thenBody)

include hS hn hnew

omit hnew in
/-- The head and the new block lead to the rest. -/
theorem Piece.splitIf_head (h : Piece F₀ F n S b) :
    Piece F₀ (F.splitIf b l.length Cond thenBody) n (S.splitIf F b (skipped n l)) b := by
  have hb := hpoint.mem_blocks hF
  have hblocks := hF.newBlocks hb
  obtain ⟨old, hold, -, hsplit⟩ := h.rest_split hpoint
  obtain ⟨hhome, hrank, hrestEq⟩ := Pieces.splitIf_of_mem (S := S) (b := b) (k := skipped n l) hb
  have hbody : (F.splitIf b l.length Cond thenBody).body b
      = (l ++ [F.condBr Cond thenBody]).map (Instr.rename (F.tailName b)) :=
    splitIf_body_self hb hpoint.body_eq
  refine .inner (l.map (Instr.rename (F.tailName b))) old
    ((F.condBr Cond thenBody).rename (F.tailName b)) ?_ rfl ?_ ?_ (oldOnes_rename_last hold _) ?_ ?_
  · rw [hbody, List.map_append, List.map_singleton]
  · intro I hI
    obtain ⟨K, hK, rfl⟩ := List.mem_map.1 hI
    obtain ⟨q, T, hq, -, hqT⟩ := hF.terminated b hb
    obtain ⟨r, -, rfl⟩ := split_terminated hpoint.body_eq hpoint.ne_nil hq
    exact hqT K (List.mem_append_left r hK)
  · show n ≤ F.next + thenBody.length
    omega
  · rw [splitIf, Cfg.succ_splitIf_self hblocks, hhome, hrank, hrestEq]
    intro c hc
    have hnew : c = F.thenBlock ∨ c = F.tailBlock := by simpa using hc
    refine ⟨mem_splitIf_blocks.2 (Or.inr hnew), not_mem_of_new hS hnew, ?_⟩
    rcases hnew with rfl | rfl
    · obtain ⟨hhome', hrank', hrest'⟩ := Pieces.splitIf_then (S := S) (F := F) (b := b)
        (k := skipped n l)
      rw [hhome', hrank', hrest']
      exact ⟨rfl, by omega, hsplit⟩
    · obtain ⟨hhome', hrank', hrest'⟩ := Pieces.splitIf_tail (S := S) (F := F) (b := b)
        (k := skipped n l)
      rw [hhome', hrank', hrest']
      exact ⟨rfl, by omega, hsplit⟩
  · right
    rw [splitIf, Cfg.succ_splitIf_self hblocks]
    exact ⟨rfl, rfl⟩

theorem Piece.splitIf_then :
    Piece F₀ (F.splitIf b l.length Cond thenBody) n (S.splitIf F b (skipped n l)) F.thenBlock := by
  have hb := hpoint.mem_blocks hF
  have hblocks := hF.newBlocks hb
  obtain ⟨hhome, hrank, hrestEq⟩ := Pieces.splitIf_then (S := S) (F := F) (b := b)
    (k := skipped n l)
  obtain ⟨hhome', hrank', hrest'⟩ := Pieces.splitIf_tail (S := S) (F := F) (b := b)
    (k := skipped n l)
  refine .inner (thenBody.map (Instr.rename (F.tailName b))) []
    ((F.thenBr thenBody).rename (F.tailName b)) ?_ rfl ?_ ?_ ?_ ?_ ?_
  · rw [splitIf_body_then, List.map_append, List.map_singleton]
  · intro I hI
    obtain ⟨K, hK, rfl⟩ := List.mem_map.1 hI
    exact hnew.not_terminator K hK
  · show n ≤ F.next + thenBody.length + 1
    omega
  · rw [oldOnes_map_rename, oldOnes_fresh hn hnew]
    rfl
  · rw [splitIf, Cfg.succ_splitIf_then hblocks, hhome, hrank, hrestEq]
    intro c hc
    obtain rfl := List.mem_singleton.1 hc
    rw [hhome', hrank', hrest']
    exact ⟨mem_splitIf_blocks.2 (Or.inr (Or.inr rfl)),
      not_mem_of_new hS (Or.inr rfl), rfl, by omega, rfl⟩
  · left
    rw [splitIf, Cfg.succ_splitIf_then hblocks]
    exact ⟨rfl, rfl⟩

omit hF hn hnew in
/-- What is left of a piece behind the point has no PHIs. -/
theorem not_phi_of_rest_drop (hb : b ∈ F.blocks) : ∀ I ∈ (S.rest b).drop (skipped n l), I.op ≠ .phi := by
  have hops : ∀ {old new : List Instr}, oldOnes n new = old.map (Instr.rename S.last) →
      (∀ I ∈ new, I.op ≠ .phi) → ∀ I ∈ old, I.op ≠ .phi := by
    intro old new h hnew I hI
    have hmem : I.rename S.last ∈ oldOnes n new := h ▸ List.mem_map_of_mem hI
    exact hnew (I.rename S.last) (List.mem_filter.1 hmem).1
  cases hS.piece b hb with
  | last q T hq hT hqT hid hrest hsucc hlast =>
      rw [hpoint.body_eq, oldOnes_append] at hrest
      obtain ⟨old, old', hsplit, hold, hold'⟩ := List.map_eq_append_iff.1 hrest.symm
      have hlen : old.length = skipped n l := by rw [skipped, ← hold, List.length_map]
      rw [hsplit, List.drop_left' hlen]
      exact hops hold'.symm hpoint.not_phi
  | inner q old T hq hT hqT hid hrest hsucc hways =>
      obtain ⟨c, hc⟩ : ∃ c, c ∈ F.cfg.succ b := by
        refine List.exists_mem_of_length_pos ?_
        rcases hways with h | h <;> omega
      obtain ⟨hmem, hnot, -, -, hrestc⟩ := hsucc c hc
      obtain ⟨r, hr, rfl⟩ := split_terminated hpoint.body_eq hpoint.ne_nil hq
      rw [oldOnes_append] at hrest
      obtain ⟨old₁, old₂, rfl, hold₁, hold₂⟩ := List.map_eq_append_iff.1 hrest.symm
      have hlen : old₁.length = skipped n l := by rw [skipped, ← hold₁, List.length_map]
      rw [hrestc, List.append_assoc, List.drop_left' hlen]
      intro I hI
      rcases List.mem_append.1 hI with hI | hI
      · exact hops hold₂.symm (fun J hJ => hpoint.not_phi J (hr ▸ List.mem_append_left _ hJ)) I hI
      · exact hS.not_phi c hmem hnot I hI

/-- Every block of the split function is one of the four pieces. -/
theorem Instruments.splitIf_piece (ha : a ∈ (F.splitIf b l.length Cond thenBody).blocks) :
    Piece F₀ (F.splitIf b l.length Cond thenBody) n (S.splitIf F b (skipped n l)) a := by
  have hb := hpoint.mem_blocks hF
  by_cases hab : a = b
  · subst hab
    exact (hS.piece a hb).splitIf_head hF hpoint hS hn
  · rcases mem_splitIf_blocks.1 ha with ha | rfl | rfl
    · exact (hS.piece a ha).splitIf_other hF hpoint ha hab
    · exact .splitIf_then hF hpoint hS hn hnew
    · exact (hS.piece b hb).splitIf_tail hpoint

omit hn hnew in
/-- The new instructions of the split function call nothing. -/
theorem Instruments.splitIf_quiet (hquiet : ∀ I ∈ thenBody, I.callsNothing = true) (a : ℕ) :
    ∀ I ∈ (F.splitIf b l.length Cond thenBody).body a, n ≤ I.id → I.callsNothing = true := by
  have hb := hpoint.mem_blocks hF
  have hmap : ∀ {L : List Instr}, (∀ I ∈ L, n ≤ I.id → I.callsNothing = true) →
      ∀ I ∈ L.map (Instr.rename (F.tailName b)), n ≤ I.id → I.callsNothing = true := by
    intro L h I hI hle
    obtain ⟨K, hK, rfl⟩ := List.mem_map.1 hI
    exact h K hK hle
  rcases F.splitIf_cases b a with rfl | rfl | rfl | ⟨hab, hthen, htail⟩
  · rw [splitIf_body_self hb hpoint.body_eq]
    refine hmap fun I hI hle => ?_
    rcases List.mem_append.1 hI with hI | hI
    · exact hS.quiet b I (hpoint.body_eq ▸ List.mem_append_left _ hI) hle
    · obtain rfl := List.mem_singleton.1 hI
      rfl
  · rw [splitIf_body_then]
    refine hmap fun I hI _ => ?_
    rcases List.mem_append.1 hI with hI | hI
    · exact hquiet I hI
    · obtain rfl := List.mem_singleton.1 hI
      rfl
  · rw [splitIf_body_tail hpoint.body_eq]
    exact hmap fun I hI hle => hS.quiet b I (hpoint.body_eq ▸ List.mem_append_right _ hI) hle
  · rw [splitIf_body_of_ne hab hthen htail]
    exact hmap fun I hI hle => hS.quiet a I hI hle

/-- **A split block leaves an instrumented function instrumented.** -/
theorem Instruments.splitIf (hquiet : ∀ I ∈ thenBody, I.callsNothing = true) :
    Instruments F₀ (F.splitIf b l.length Cond thenBody) n (S.splitIf F b (skipped n l)) where
  entry_eq := hS.entry_eq
  blocks_subset a ha := mem_splitIf_blocks.2 (Or.inl (hS.blocks_subset ha))
  home_eq a ha := (Pieces.splitIf_of_mem (hS.blocks_subset ha)).1.trans (hS.home_eq a ha)
  rest_eq a ha := (Pieces.splitIf_of_mem (hS.blocks_subset ha)).2.2.trans (hS.rest_eq a ha)
  home_mem := by
    intro a ha
    rcases mem_splitIf_blocks.1 ha with ha | ha
    · rw [(Pieces.splitIf_of_mem ha).1]
      exact hS.home_mem a ha
    · rw [(Pieces.splitIf_new ha).1]
      exact hS.home_mem b (hpoint.mem_blocks hF)
  suffix := by
    intro a ha
    rcases mem_splitIf_blocks.1 ha with ha | ha
    · rw [(Pieces.splitIf_of_mem ha).1, (Pieces.splitIf_of_mem ha).2.2]
      exact hS.suffix a ha
    · rw [(Pieces.splitIf_new ha).1, (Pieces.splitIf_new ha).2]
      exact (List.drop_suffix ..).trans (hS.suffix b (hpoint.mem_blocks hF))
  not_phi := by
    intro a ha hnot
    rcases mem_splitIf_blocks.1 ha with ha | ha
    · rw [(Pieces.splitIf_of_mem ha).2.2]
      exact hS.not_phi a ha hnot
    · rw [(Pieces.splitIf_new ha).2]
      exact not_phi_of_rest_drop hpoint hS (hpoint.mem_blocks hF)
  last_inj a ha c hc hlast :=
    hS.last_inj a ha c hc (tailName_inj (hS.last_mem a ha) (hS.last_mem c hc) hlast)
  last_mem a ha := tailName_mem (hS.last_mem a ha)
  piece a ha := hS.splitIf_piece hF hpoint hn hnew ha
  quiet := hS.splitIf_quiet hF hpoint hquiet

end

end SchedPass
