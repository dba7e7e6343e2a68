import SchedPass.Weave.Instrument

set_option autoImplicit false

/-! # Code under a condition (`SplitBlockAndInsertIfThen`)

What stands from a point of a block on becomes a block of its own, and between the two comes a block
that is entered under a condition. The function stays well formed (`Func.WellFormed.splitIf`) and valid
(`Func.Valid.splitIf`), and so does one that is given new instructions without a branch. Both edits
leave a function that is instrumented so far an instrumented one (`Instruments.splitIf`,
`Instruments.insertAt`). -/

namespace SchedPass

namespace Func

variable (F : Func)

/-- The first name above those of the blocks. -/
def nextBlock : ℕ := F.blocks.foldr (fun b m => max (b + 1) m) 0

/-- The block that is entered under the condition. -/
def thenBlock : ℕ := F.nextBlock

/-- The block with what stood behind the point. -/
def tailBlock : ℕ := F.nextBlock + 1

/-- The branch to the new block or around it. -/
def condBr (Cond : Operand) (thenBody : List Instr) : Instr :=
  ⟨F.next + thenBody.length, .terminator, .other, [Cond], []⟩

/-- The branch behind the new block. -/
def thenBr (thenBody : List Instr) : Instr :=
  ⟨F.next + thenBody.length + 1, .terminator, .other, [], []⟩

/-- A PHI that named the block names the block with its end. -/
def tailName (b : ℕ) : ℕ → ℕ := Function.update id b F.tailBlock

/-- `SplitBlockAndInsertIfThen` at index `k` of block `b`. -/
def splitIf (b k : ℕ) (Cond : Operand) (thenBody : List Instr) : Func :=
  let body := Function.update (Function.update (Function.update F.body
    b ((F.body b).take k ++ [F.condBr Cond thenBody]))
    F.thenBlock (thenBody ++ [F.thenBr thenBody]))
    F.tailBlock ((F.body b).drop k)
  { cfg := F.cfg.splitIf b F.thenBlock F.tailBlock
    blocks := F.blocks ++ [F.thenBlock, F.tailBlock]
    body := fun a => (body a).map (Instr.rename (F.tailName b))
    next := F.next + thenBody.length + 2 }

variable {F} {a b k v : ℕ} {Cond : Operand} {thenBody l post : List Instr}

theorem lt_nextBlock (hb : b ∈ F.blocks) : b < F.nextBlock := by
  have hfold : ∀ l : List ℕ, b ∈ l → b < l.foldr (fun b m => max (b + 1) m) 0 := by
    intro l hl
    induction l with
    | nil => cases hl
    | cons c l ih =>
        rw [List.foldr_cons]
        rcases List.mem_cons.1 hl with rfl | hl
        · omega
        · have := ih hl
          omega
  exact hfold F.blocks hb

theorem thenBlock_not_mem : F.thenBlock ∉ F.blocks := fun h => (lt_nextBlock h).false

theorem tailBlock_not_mem : F.tailBlock ∉ F.blocks := fun h => by
  have := lt_nextBlock h
  unfold tailBlock at this
  omega

theorem thenBlock_ne_tailBlock : F.thenBlock ≠ F.tailBlock := by
  simp [thenBlock, tailBlock]

theorem WellFormed.newBlocks (hF : F.WellFormed) (hb : b ∈ F.blocks) :
    Cfg.NewBlocks F.cfg {a | a ∈ F.blocks} b F.thenBlock F.tailBlock where
  entry_mem := hF.entry_mem
  succ_mem := hF.succ_mem
  mem := hb
  not_mem := thenBlock_not_mem
  not_mem' := tailBlock_not_mem
  ne := thenBlock_ne_tailBlock

/-! ## The bodies -/

theorem splitIf_body_self (hb : b ∈ F.blocks) (hbody : F.body b = l ++ post) :
    (F.splitIf b l.length Cond thenBody).body b
      = (l ++ [F.condBr Cond thenBody]).map (Instr.rename (F.tailName b)) := by
  have hthen : b ≠ F.thenBlock := fun h => thenBlock_not_mem (h ▸ hb)
  have htail : b ≠ F.tailBlock := fun h => tailBlock_not_mem (h ▸ hb)
  simp only [splitIf, Function.update_of_ne htail, Function.update_of_ne hthen,
    Function.update_self, hbody, List.take_left']

theorem splitIf_body_tail (hbody : F.body b = l ++ post) :
    (F.splitIf b l.length Cond thenBody).body F.tailBlock = post.map (Instr.rename (F.tailName b)) := by
  simp only [splitIf, Function.update_self, hbody, List.drop_left']

theorem splitIf_body_then : (F.splitIf b k Cond thenBody).body F.thenBlock
    = (thenBody ++ [F.thenBr thenBody]).map (Instr.rename (F.tailName b)) := by
  simp only [splitIf, Function.update_of_ne thenBlock_ne_tailBlock, Function.update_self]

theorem splitIf_body_of_ne (hb : a ≠ b) (hthen : a ≠ F.thenBlock) (htail : a ≠ F.tailBlock) :
    (F.splitIf b k Cond thenBody).body a = (F.body a).map (Instr.rename (F.tailName b)) := by
  simp only [splitIf, Function.update_of_ne htail, Function.update_of_ne hthen,
    Function.update_of_ne hb]

theorem mem_splitIf_blocks : a ∈ (F.splitIf b k Cond thenBody).blocks ↔
    a ∈ F.blocks ∨ a = F.thenBlock ∨ a = F.tailBlock := by
  simp [splitIf]

/-- The four kinds of blocks. -/
theorem splitIf_cases (F : Func) (b a : ℕ) : b = a ∨ F.thenBlock = a ∨ F.tailBlock = a ∨
    (a ≠ b ∧ a ≠ F.thenBlock ∧ a ≠ F.tailBlock) := by
  grind

/-! ## Well-formed functions -/

theorem map_id_rename (f : ℕ → ℕ) (l : List Instr) :
    (l.map (Instr.rename f)).map Instr.id = l.map Instr.id := by
  simp [List.map_map, Function.comp_def]

/-- A point of a block: behind its PHIs, and before its terminator. -/
structure Point (F : Func) (b : ℕ) (l post : List Instr) : Prop where
  body_eq : F.body b = l ++ post
  not_phi : ∀ I ∈ post, I.op ≠ .phi
  ne_nil : post ≠ []

theorem Point.mem_blocks (hF : F.WellFormed) (h : F.Point b l post) : b ∈ F.blocks := by
  obtain ⟨J, hJ⟩ := List.exists_mem_of_ne_nil post h.ne_nil
  exact hF.body_mem b J (h.body_eq ▸ List.mem_append_right l hJ)

section

variable (hF : F.WellFormed) (hpoint : F.Point b l post) (hnew : F.Fresh thenBody)

theorem Fresh.id_mem {new : List Instr} (hnew : F.Fresh new) {I : Instr} (hI : I ∈ new) :
    F.next ≤ I.id ∧ I.id < F.next + new.length := by
  have hid : I.id ∈ new.map Instr.id := List.mem_map_of_mem hI
  rw [hnew.ids_eq] at hid
  simpa using hid

include hF hpoint

theorem ids_splitIf_self : (F.splitIf b l.length Cond thenBody).ids b
    = l.map Instr.id ++ [F.next + thenBody.length] := by
  rw [ids, splitIf_body_self (hpoint.mem_blocks hF) hpoint.body_eq, map_id_rename, List.map_append]
  rfl

omit hF in
theorem ids_splitIf_tail : (F.splitIf b l.length Cond thenBody).ids F.tailBlock
    = post.map Instr.id := by
  rw [ids, splitIf_body_tail hpoint.body_eq, map_id_rename]

omit hF hpoint in
theorem ids_splitIf_then (hnew : F.Fresh thenBody) :
    (F.splitIf b k Cond thenBody).ids F.thenBlock
      = List.range' F.next thenBody.length ++ [F.next + thenBody.length + 1] := by
  rw [ids, splitIf_body_then, map_id_rename, List.map_append, hnew.ids_eq]
  rfl

omit hF hpoint in
theorem ids_splitIf_of_ne (hb : a ≠ b) (hthen : a ≠ F.thenBlock) (htail : a ≠ F.tailBlock) :
    (F.splitIf b k Cond thenBody).ids a = F.ids a := by
  rw [ids, splitIf_body_of_ne hb hthen htail, map_id_rename]
  rfl

omit hF in
theorem ids_eq_of_point : F.ids b = l.map Instr.id ++ post.map Instr.id := by
  rw [ids, hpoint.body_eq, List.map_append]

/-- Whose values are where. -/
theorem mem_ids_splitIf (hnew : F.Fresh thenBody)
    (hv : v ∈ (F.splitIf b l.length Cond thenBody).ids a) :
    (a = b ∧ (v ∈ l.map Instr.id ∨ v = F.next + thenBody.length)) ∨
    (a = F.thenBlock ∧ F.next ≤ v ∧ v < F.next + thenBody.length + 2 ∧
      v ≠ F.next + thenBody.length) ∨
    (a = F.tailBlock ∧ v ∈ post.map Instr.id) ∨
    (a ≠ b ∧ a ≠ F.thenBlock ∧ a ≠ F.tailBlock ∧ v ∈ F.ids a) := by
  rcases F.splitIf_cases b a with rfl | rfl | rfl | ⟨hab, hthen, htail⟩
  · rw [ids_splitIf_self hF hpoint] at hv
    exact Or.inl ⟨rfl, by simpa using hv⟩
  · rw [ids_splitIf_then hnew, List.mem_append, List.mem_range'_1, List.mem_singleton] at hv
    refine Or.inr (Or.inl ⟨rfl, ?_⟩)
    omega
  · rw [ids_splitIf_tail hpoint] at hv
    exact Or.inr (Or.inr (Or.inl ⟨rfl, hv⟩))
  · rw [ids_splitIf_of_ne hab hthen htail] at hv
    exact Or.inr (Or.inr (Or.inr ⟨hab, hthen, htail, hv⟩))

include hnew

theorem nodup_splitIf (a : ℕ) : ((F.splitIf b l.length Cond thenBody).ids a).Nodup := by
  have hnodup := hF.ids_nodup b
  rw [ids_eq_of_point hpoint, List.nodup_append] at hnodup
  rcases F.splitIf_cases b a with rfl | rfl | rfl | ⟨hab, hthen, htail⟩
  · rw [ids_splitIf_self hF hpoint, List.nodup_append]
    refine ⟨hnodup.1, List.nodup_singleton _, ?_⟩
    intro v hv w hw
    obtain rfl := List.mem_singleton.1 hw
    have hlt := hF.fresh b v (by
      rw [ids_eq_of_point hpoint]
      exact List.mem_append_left _ hv)
    omega
  · rw [ids_splitIf_then hnew, List.nodup_append]
    refine ⟨List.nodup_range', List.nodup_singleton _, ?_⟩
    intro v hv w hw
    obtain rfl := List.mem_singleton.1 hw
    have := (List.mem_range'_1.1 hv).2
    omega
  · rw [ids_splitIf_tail hpoint]
    exact hnodup.2.1
  · rw [ids_splitIf_of_ne hab hthen htail]
    exact hF.ids_nodup a

/-- An old value is where it was, or in the tail if it was behind the point. -/
theorem old_of_mem_ids_splitIf (hv : v ∈ (F.splitIf b l.length Cond thenBody).ids a)
    (hlt : v < F.next) : (a = F.tailBlock ∧ v ∈ post.map Instr.id) ∨
      (a ≠ F.tailBlock ∧ v ∈ F.ids a ∧ (a = b → v ∈ l.map Instr.id)) := by
  have hb := hpoint.mem_blocks hF
  rcases mem_ids_splitIf hF hpoint hnew hv with
    ⟨rfl, hold⟩ | ⟨-, hle, -⟩ | htail | ⟨hab, -, htail, hold⟩
  · have hl := hold.resolve_right (by omega)
    refine Or.inr ⟨fun h => tailBlock_not_mem (h ▸ hb), ?_, fun _ => hl⟩
    rw [ids_eq_of_point hpoint]
    exact List.mem_append_left _ hl
  · omega
  · exact Or.inl htail
  · exact Or.inr ⟨htail, hold, fun h => absurd h hab⟩

theorem ids_block_splitIf {c : ℕ} (ha : v ∈ (F.splitIf b l.length Cond thenBody).ids a)
    (hc : v ∈ (F.splitIf b l.length Cond thenBody).ids c) : a = c := by
  by_cases hlt : v < F.next
  · have hnodup := hF.ids_nodup b
    rw [ids_eq_of_point hpoint, List.nodup_append] at hnodup
    have hpost : v ∈ post.map Instr.id → v ∈ F.ids b := fun hv => by
      rw [ids_eq_of_point hpoint]
      exact List.mem_append_right _ hv
    have hnot : ∀ d, v ∈ post.map Instr.id → v ∈ F.ids d → (d = b → v ∈ l.map Instr.id) → False :=
      fun d hv hd hl => hnodup.2.2 v (hl (hF.ids_block d b v hd (hpost hv))) v hv rfl
    rcases old_of_mem_ids_splitIf hF hpoint hnew ha hlt with ⟨rfl, hap⟩ | ⟨-, hao, hal⟩ <;>
      rcases old_of_mem_ids_splitIf hF hpoint hnew hc hlt with ⟨rfl, hcp⟩ | ⟨-, hco, hcl⟩
    · rfl
    · exact absurd hcl (hnot c hap hco)
    · exact absurd hal (hnot a hcp hao)
    · exact hF.ids_block a c v hao hco
  · have hold : ∀ d, v ∈ F.ids d → False := fun d hd => hlt (hF.fresh d v hd)
    have hl : v ∉ l.map Instr.id := fun hv => hold b (by
      rw [ids_eq_of_point hpoint]
      exact List.mem_append_left _ hv)
    have hp : v ∉ post.map Instr.id := fun hv => hold b (by
      rw [ids_eq_of_point hpoint]
      exact List.mem_append_right _ hv)
    rcases mem_ids_splitIf hF hpoint hnew ha with ⟨rfl, h⟩ | ⟨rfl, -, -, h⟩ | ⟨-, h⟩ | ⟨-, -, -, h⟩ <;>
      rcases mem_ids_splitIf hF hpoint hnew hc with ⟨rfl, h'⟩ | ⟨rfl, -, -, h'⟩ | ⟨-, h'⟩ | ⟨-, -, -, h'⟩
    all_goals first
      | rfl
      | exact absurd h hp
      | exact absurd h' hp
      | exact (hold _ h).elim
      | exact (hold _ h').elim
      | exact absurd (h.resolve_left hl) h'
      | exact absurd (h'.resolve_left hl) h

theorem fresh_splitIf (hv : v ∈ (F.splitIf b l.length Cond thenBody).ids a) :
    v < F.next + thenBody.length + 2 := by
  have hold : ∀ c, v ∈ F.ids c → v < F.next := fun c hc => hF.fresh c v hc
  rcases mem_ids_splitIf hF hpoint hnew hv with ⟨-, h | h⟩ | ⟨-, -, h, -⟩ | ⟨-, h⟩ | ⟨-, -, -, h⟩
  · have := hold b (by
      rw [ids_eq_of_point hpoint]
      exact List.mem_append_left _ h)
    omega
  · omega
  · exact h
  · have := hold b (by
      rw [ids_eq_of_point hpoint]
      exact List.mem_append_right _ h)
    omega
  · have := hold a h
    omega

theorem phis_first_splitIf (a : ℕ) :
    ((F.splitIf b l.length Cond thenBody).body a).Pairwise fun I J => J.op = .phi → I.op = .phi := by
  have hmap : ∀ {l : List Instr} {f : ℕ → ℕ}, (l.Pairwise fun I J => J.op = .phi → I.op = .phi) →
      (l.map (Instr.rename f)).Pairwise fun I J => J.op = .phi → I.op = .phi := fun h => by
    rw [List.pairwise_map]
    exact h
  have hbody := hF.phis_first b
  rw [hpoint.body_eq, List.pairwise_append] at hbody
  rcases F.splitIf_cases b a with rfl | rfl | rfl | ⟨hab, hthen, htail⟩
  · rw [splitIf_body_self (hpoint.mem_blocks hF) hpoint.body_eq]
    refine hmap (List.pairwise_append.2 ⟨hbody.1, List.pairwise_singleton .., ?_⟩)
    intro I _ J hJ hop
    obtain rfl := List.mem_singleton.1 hJ
    cases hop
  · rw [splitIf_body_then]
    refine hmap (List.pairwise_of_forall_mem_list fun I _ J hJ hop => ?_)
    rcases List.mem_append.1 hJ with hJ | hJ
    · exact absurd hop (hnew.not_phi J hJ)
    · obtain rfl := List.mem_singleton.1 hJ
      cases hop
  · rw [splitIf_body_tail hpoint.body_eq]
    exact hmap hbody.2.1
  · rw [splitIf_body_of_ne hab hthen htail]
    exact hmap (hF.phis_first a)

theorem terminated_splitIf (ha : a ∈ (F.splitIf b l.length Cond thenBody).blocks) :
    ∃ q T, (F.splitIf b l.length Cond thenBody).body a = q ++ [T] ∧ T.op = .terminator ∧
      ∀ I ∈ q, I.op ≠ .terminator := by
  have hmap : ∀ {l : List Instr} (f : ℕ → ℕ), (∃ q T, l = q ++ [T] ∧ T.op = .terminator ∧
      ∀ I ∈ q, I.op ≠ .terminator) → ∃ q T, l.map (Instr.rename f) = q ++ [T] ∧
        T.op = .terminator ∧ ∀ I ∈ q, I.op ≠ .terminator := by
    rintro _ f ⟨q, T, rfl, hT, hq⟩
    refine ⟨q.map (Instr.rename f), T.rename f, by simp, hT, ?_⟩
    intro I hI
    obtain ⟨J, hJ, rfl⟩ := List.mem_map.1 hI
    exact hq J hJ
  have hb := hpoint.mem_blocks hF
  obtain ⟨q, T, hq, hT, hqT⟩ := hF.terminated b hb
  obtain ⟨r, U, rfl⟩ := (List.eq_nil_or_concat' post).resolve_left hpoint.ne_nil
  have hsplit := hpoint.body_eq
  rw [hq, ← List.append_assoc] at hsplit
  obtain ⟨rfl, hU⟩ := List.append_inj' hsplit rfl
  obtain rfl := List.head_eq_of_cons_eq hU
  rcases F.splitIf_cases b a with rfl | rfl | rfl | ⟨hab, hthen, htail⟩
  · rw [splitIf_body_self hb hpoint.body_eq]
    exact hmap _ ⟨l, _, rfl, rfl, fun I hI => hqT I (List.mem_append_left r hI)⟩
  · rw [splitIf_body_then]
    exact hmap _ ⟨thenBody, _, rfl, rfl, hnew.not_terminator⟩
  · rw [splitIf_body_tail hpoint.body_eq]
    exact hmap _ ⟨r, T, rfl, hT, fun I hI => hqT I (List.mem_append_right l hI)⟩
  · rw [splitIf_body_of_ne hab hthen htail]
    refine hmap _ (hF.terminated a ?_)
    rcases mem_splitIf_blocks.1 ha with h | h | h
    exacts [h, absurd h hthen, absurd h htail]

omit hnew in
theorem succ_mem_splitIf (ha : a ∈ (F.splitIf b l.length Cond thenBody).blocks) {c : ℕ}
    (hc : c ∈ (F.splitIf b l.length Cond thenBody).cfg.succ a) :
    c ∈ (F.splitIf b l.length Cond thenBody).blocks := by
  have hb := hpoint.mem_blocks hF
  have hnew := hF.newBlocks hb
  rw [mem_splitIf_blocks] at ha ⊢
  rcases F.splitIf_cases b a with rfl | rfl | rfl | ⟨hab, hthen, htail⟩
  · rw [splitIf, Cfg.succ_splitIf_self hnew] at hc
    exact Or.inr (by simpa using hc)
  · rw [splitIf, Cfg.succ_splitIf_then hnew, List.mem_singleton] at hc
    exact Or.inr (Or.inr hc)
  · rw [splitIf, Cfg.succ_splitIf_tail] at hc
    exact Or.inl (hF.succ_mem b hb c hc)
  · have ha' : a ∈ F.blocks := by
      rcases ha with h | h | h
      exacts [h, absurd h hthen, absurd h htail]
    rw [splitIf, Cfg.succ_splitIf_of_ne hnew ha' hab] at hc
    exact Or.inl (hF.succ_mem a ha' c hc)

/-- **A block may be split anywhere behind its PHIs and before its terminator.** -/
theorem WellFormed.splitIf : (F.splitIf b l.length Cond thenBody).WellFormed where
  entry_mem := mem_splitIf_blocks.2 (Or.inl hF.entry_mem)
  succ_mem := fun _ ha _ hc => succ_mem_splitIf hF hpoint ha hc
  body_mem := by
    intro a I hI
    rw [mem_splitIf_blocks]
    rcases F.splitIf_cases b a with rfl | rfl | rfl | ⟨hab, hthen, htail⟩
    · exact Or.inl (hpoint.mem_blocks hF)
    · exact Or.inr (Or.inl rfl)
    · exact Or.inr (Or.inr rfl)
    · rw [splitIf_body_of_ne hab hthen htail] at hI
      obtain ⟨J, hJ, -⟩ := List.mem_map.1 hI
      exact Or.inl (hF.body_mem a J hJ)
  ids_nodup := nodup_splitIf hF hpoint hnew
  ids_block := fun _ _ _ ha hc => ids_block_splitIf hF hpoint hnew ha hc
  fresh := fun _ _ hv => fresh_splitIf hF hpoint hnew hv
  phis_first := phis_first_splitIf hF hpoint hnew
  terminated := fun _ ha => terminated_splitIf hF hpoint hnew ha
  incoming_phi := by
    have hmap : ∀ {l : List Instr} {f : ℕ → ℕ}, (∀ I ∈ l, I.op ≠ .phi → I.incoming = []) →
        ∀ I ∈ l.map (Instr.rename f), I.op ≠ .phi → I.incoming = [] := by
      intro l f h I hI hop
      obtain ⟨J, hJ, rfl⟩ := List.mem_map.1 hI
      rw [Instr.rename, h J hJ hop]
      rfl
    have hbody := hF.incoming_phi b
    rw [hpoint.body_eq] at hbody
    intro a
    rcases F.splitIf_cases b a with rfl | rfl | rfl | ⟨hab, hthen, htail⟩
    · rw [splitIf_body_self (hpoint.mem_blocks hF) hpoint.body_eq]
      refine hmap fun I hI => ?_
      rcases List.mem_append.1 hI with hI | hI
      · exact hbody I (List.mem_append_left _ hI)
      · exact fun _ => List.mem_singleton.1 hI ▸ rfl
    · rw [splitIf_body_then]
      refine hmap fun I hI _ => ?_
      rcases List.mem_append.1 hI with hI | hI
      · exact hnew.incoming_eq I hI
      · exact List.mem_singleton.1 hI ▸ rfl
    · rw [splitIf_body_tail hpoint.body_eq]
      exact hmap fun I hI => hbody I (List.mem_append_right _ hI)
    · rw [splitIf_body_of_ne hab hthen htail]
      exact hmap (hF.incoming_phi a)

end

/-! ## Valid functions -/

/-- The PHIs name blocks of the function. -/
def PhisName (F : Func) : Prop := ∀ b, ∀ I ∈ F.body b, ∀ p ∈ I.incoming, p.1 ∈ F.blocks

/-- The operands of the renamed instructions are where they are wanted. -/
theorem BodyOk.rename {D : ℕ → List ℕ → ℕ → Prop} {F F' : Func} {a a' : ℕ} {q pre : List ℕ}
    {L : List Instr} {f : ℕ → ℕ} (h : F.BodyOk D a (q ++ pre) L)
    (hargs : ∀ pre v, D a (q ++ pre) v → F'.Available a' pre v)
    (hin : ∀ I ∈ L, ∀ p ∈ I.incoming, ∀ v, D p.1 (F.ids p.1) v →
      F'.Available (f p.1) (F'.ids (f p.1)) v) :
    F'.BodyOk F'.Available a' pre (L.map (Instr.rename f)) := by
  induction L generalizing pre with
  | nil => trivial
  | cons I L ih =>
      refine ⟨⟨fun x hx => (h.1.1 x hx).mono (hargs pre), ?_⟩, ?_⟩
      · intro p hp
        obtain ⟨r, hr, rfl⟩ := List.mem_map.1 hp
        exact (h.1.2 r hr).mono (hin I (List.mem_cons_self ..) r hr)
      · have hrest : F.BodyOk D a (q ++ (pre ++ [I.id])) L := by
          rw [← List.append_assoc]
          exact h.2
        exact ih hrest fun K hK => hin K (List.mem_cons_of_mem I hK)

section

variable (hF : F.WellFormed) (hpoint : F.Point b l post) (hnew : F.Fresh thenBody)

include hF hpoint

variable (Cond thenBody) in
/-- Where an old value is defined after the split. -/
theorem mem_ids_splitIf_old {d : ℕ} (hv : v ∈ F.ids d) :
    (d = b ∧ v ∈ post.map Instr.id ∧ v ∈ (F.splitIf b l.length Cond thenBody).ids F.tailBlock) ∨
      v ∈ (F.splitIf b l.length Cond thenBody).ids d := by
  by_cases hd : d = b
  · subst hd
    rw [ids_eq_of_point hpoint, List.mem_append] at hv
    rcases hv with hv | hv
    · rw [ids_splitIf_self hF hpoint]
      exact Or.inr (List.mem_append_left _ hv)
    · rw [ids_splitIf_tail hpoint]
      exact Or.inl ⟨rfl, hv, hv⟩
  · have hmem := hF.mem_blocks hv
    rw [ids_splitIf_of_ne hd (fun h => thenBlock_not_mem (h ▸ hmem))
      fun h => tailBlock_not_mem (h ▸ hmem)]
    exact Or.inr hv

theorem Available.splitIf {pre : List ℕ} (ha : a ∈ F.blocks) (h : F.Available a pre v) :
    (F.splitIf b l.length Cond thenBody).Available a pre v := by
  have hblocks := hF.newBlocks (hpoint.mem_blocks hF)
  rcases h with h | ⟨d, hv, hdom⟩
  · exact Or.inl h
  · rcases mem_ids_splitIf_old Cond thenBody hF hpoint hv with
      ⟨rfl, -, hv⟩ | hv
    · exact Or.inr ⟨_, hv, hdom.splitIf_tail hblocks ha⟩
    · exact Or.inr ⟨d, hv, hdom.splitIf hblocks ha⟩

/-- What is available at the point is available in the new blocks. -/
theorem Available.splitIf_new {pre : List ℕ} {x : ℕ} (hx : x = F.thenBlock ∨ x = F.tailBlock)
    (h : F.Available b (l.map Instr.id) v) :
    (F.splitIf b l.length Cond thenBody).Available x pre v := by
  have hblocks := hF.newBlocks (hpoint.mem_blocks hF)
  rcases h with h | ⟨d, hv, hdom⟩
  · refine Or.inr ⟨b, ?_, Cfg.strictDom_splitIf_new hblocks hx (Or.inl rfl)⟩
    rw [ids_splitIf_self hF hpoint]
    exact List.mem_append_left _ h
  · rcases mem_ids_splitIf_old Cond thenBody hF hpoint hv with
      ⟨rfl, -, hv⟩ | hv
    · exact Or.inr ⟨_, hv, hdom.splitIf_tail_new hblocks hx⟩
    · exact Or.inr ⟨d, hv, Cfg.strictDom_splitIf_new hblocks hx (Or.inr hdom)⟩

theorem Available.splitIf_tail {pre : List ℕ} (h : F.Available b (l.map Instr.id ++ pre) v) :
    (F.splitIf b l.length Cond thenBody).Available F.tailBlock pre v := by
  rcases h with h | h
  · rcases List.mem_append.1 h with h | h
    · exact Available.splitIf_new hF hpoint (Or.inr rfl) (Or.inl h)
    · exact Or.inl h
  · exact Available.splitIf_new hF hpoint (Or.inr rfl) (Or.inr h)

variable (Cond thenBody) in
/-- What a PHI takes from a block is available at the block's end. -/
theorem Available.splitIf_incoming {p : ℕ} (hp : p ∈ F.blocks) (h : F.Available p (F.ids p) v) :
    (F.splitIf b l.length Cond thenBody).Available (F.tailName b p)
      ((F.splitIf b l.length Cond thenBody).ids (F.tailName b p)) v := by
  by_cases hpb : p = b
  · subst hpb
    rw [ids_eq_of_point hpoint] at h
    rw [tailName, Function.update_self, ids_splitIf_tail hpoint]
    exact Available.splitIf_tail hF hpoint h
  · rw [tailName, Function.update_of_ne hpb, id_eq, ids_splitIf_of_ne hpb
      (fun h => thenBlock_not_mem (h ▸ hp)) fun h => tailBlock_not_mem (h ▸ hp)]
    exact Available.splitIf hF hpoint hp h

include hnew

/-- **Splitting a block keeps a function valid**, if the condition and what the new block takes from
    outside are available at the point. -/
theorem Valid.splitIf (hvalid : F.Valid) (hphis : F.PhisName)
    (hcond : Cond.All (F.Available b (l.map Instr.id)))
    (hthen : F.BodyOk (fun _ pre v => v ∈ pre ∨ F.Available b (l.map Instr.id) v) b [] thenBody) :
    (F.splitIf b l.length Cond thenBody).Valid := by
  have hb := hpoint.mem_blocks hF
  have hbody := hvalid b
  rw [hpoint.body_eq, bodyOk_append] at hbody
  have hin : ∀ a, ∀ I ∈ F.body a, ∀ p ∈ I.incoming, ∀ v, F.Available p.1 (F.ids p.1) v → _ :=
    fun a I hI p hp v => Available.splitIf_incoming Cond thenBody hF hpoint
      (hphis a I hI p hp)
  intro a
  rcases F.splitIf_cases b a with rfl | rfl | rfl | ⟨hab, hnotThen, hnotTail⟩
  · rw [splitIf_body_self hb hpoint.body_eq, List.map_append, bodyOk_append, map_id_rename]
    refine ⟨BodyOk.rename (q := []) hbody.1 (fun _ _ => Available.splitIf hF hpoint hb)
      fun I hI => hin b I (hpoint.body_eq ▸ List.mem_append_left _ hI), ⟨⟨?_, ?_⟩, trivial⟩⟩
    · intro x hx
      obtain rfl := List.mem_singleton.1 hx
      exact hcond.mono fun v hv => Available.splitIf hF hpoint hb hv
    · intro p hp
      cases hp
  · rw [splitIf_body_then, List.map_append, bodyOk_append]
    refine ⟨BodyOk.rename (q := []) hthen ?_ ?_, ⟨⟨?_, ?_⟩, trivial⟩⟩
    · rintro pre v (hv | hv)
      · exact Or.inl hv
      · exact Available.splitIf_new hF hpoint (Or.inl rfl) hv
    · intro I hI p hp
      rw [hnew.incoming_eq I hI] at hp
      cases hp
    · intro x hx
      cases hx
    · intro p hp
      cases hp
  · rw [splitIf_body_tail hpoint.body_eq]
    refine BodyOk.rename (q := l.map Instr.id) (by simpa using hbody.2)
      (fun _ _ => Available.splitIf_tail hF hpoint)
      fun I hI => hin b I (hpoint.body_eq ▸ List.mem_append_right _ hI)
  · rw [splitIf_body_of_ne hab hnotThen hnotTail]
    by_cases ha : a ∈ F.blocks
    · exact BodyOk.rename (q := []) (hvalid a) (fun _ _ => Available.splitIf hF hpoint ha)
        fun I hI => hin a I hI
    · rw [List.eq_nil_iff_forall_not_mem.2 fun I hI => ha (hF.body_mem a I hI)]
      trivial

theorem PhisName.splitIf (hphis : F.PhisName) : (F.splitIf b l.length Cond thenBody).PhisName := by
  have hb := hpoint.mem_blocks hF
  have hmap : ∀ {L : List Instr}, (∀ I ∈ L, ∀ p ∈ I.incoming, p.1 ∈ F.blocks) →
      ∀ I ∈ L.map (Instr.rename (F.tailName b)), ∀ p ∈ I.incoming,
        p.1 ∈ (F.splitIf b l.length Cond thenBody).blocks := by
    intro L h I hI p hp
    obtain ⟨J, hJ, rfl⟩ := List.mem_map.1 hI
    obtain ⟨r, hr, rfl⟩ := List.mem_map.1 hp
    rw [mem_splitIf_blocks]
    by_cases hrb : r.1 = b
    · exact Or.inr (Or.inr (by simp [tailName, hrb]))
    · exact Or.inl (by simpa [tailName, hrb] using h J hJ r hr)
  have hbody := hphis b
  rw [hpoint.body_eq] at hbody
  intro a
  rcases F.splitIf_cases b a with rfl | rfl | rfl | ⟨hab, hnotThen, hnotTail⟩
  · rw [splitIf_body_self hb hpoint.body_eq]
    refine hmap fun I hI => ?_
    rcases List.mem_append.1 hI with hI | hI
    · exact hbody I (List.mem_append_left _ hI)
    · obtain rfl := List.mem_singleton.1 hI
      intro p hp
      cases hp
  · rw [splitIf_body_then]
    refine hmap fun I hI p hp => ?_
    rcases List.mem_append.1 hI with hI | hI
    · rw [hnew.incoming_eq I hI] at hp
      cases hp
    · obtain rfl := List.mem_singleton.1 hI
      cases hp
  · rw [splitIf_body_tail hpoint.body_eq]
    exact hmap fun I hI => hbody I (List.mem_append_right _ hI)
  · rw [splitIf_body_of_ne hab hnotThen hnotTail]
    exact hmap (hphis a)

end

end Func

end SchedPass
