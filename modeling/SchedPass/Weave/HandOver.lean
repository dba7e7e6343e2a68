import SchedPass.Weave.Builder

set_option autoImplicit false

/-! # Handing the uses over in the middle of the weaving

`Weaver::run` lets the task, which it has just computed, have the uses of the reads of the block index,
and erases the reads. Where the task can be used at each of the reads, the function stays valid
(`Func.Valid.handOver`), and it is an instrumented version of the function whose reads were replaced by
an argument (`Instruments.handOver`). -/

namespace SchedPass

/-- Each of `olds` hands its uses to `x` and is erased. -/
def Func.handOver (F : Func) (olds : List ℕ) (x : Operand) : Func :=
  olds.foldl (fun G v => (G.replaceAllUsesWith v x).eraseFromParent v) F

/-- What is left of a list of instructions. -/
def handedOver (olds : List ℕ) (x : Operand) (l : List Instr) : List Instr :=
  (l.filter fun I => I.id ∉ olds).map fun I => I.substUses olds x

section

variable {F : Func} {olds : List ℕ} {x : Operand} {p n k b v : ℕ} {I : Instr} {l l' : List Instr}

/-! ## The body -/

theorem handedOver_append : handedOver olds x (l ++ l') = handedOver olds x l ++ handedOver olds x l' := by
  simp [handedOver]

theorem handedOver_cons_of_notMem (h : I.id ∉ olds) :
    handedOver olds x (I :: l) = I.substUses olds x :: handedOver olds x l := by
  simp [handedOver, h]

theorem handedOver_cons_of_mem (h : I.id ∈ olds) :
    handedOver olds x (I :: l) = handedOver olds x l := by
  simp [handedOver, h]

theorem mem_handedOver {K : Instr} (hK : K ∈ handedOver olds x l) :
    ∃ I ∈ l, I.id ∉ olds ∧ K = I.substUses olds x := by
  obtain ⟨I, hI, rfl⟩ := List.mem_map.1 hK
  obtain ⟨hI, hid⟩ := List.mem_filter.1 hI
  exact ⟨I, hI, by simpa using hid, rfl⟩

theorem ids_handedOver : (handedOver olds x l).map Instr.id = (l.map Instr.id).filter (· ∉ olds) := by
  simp only [handedOver, List.map_map, List.filter_map, Function.comp_def]
  rfl

theorem Operand.subst_subst_self (hp : p ∉ olds) (y : Operand) :
    (y.subst [v] (.inst p)).subst olds (.inst p) = y.subst (v :: olds) (.inst p) := by
  cases y with
  | inst w =>
      by_cases hw : w = v
      · simp [subst, hw, hp]
      · simp [subst, hw]
  | _ => rfl

/-- One after the other or at once. -/
theorem handOver_body (hx : ∀ w, x = .inst w → w ∉ olds) (F : Func) (b : ℕ) :
    (F.handOver olds x).body b = handedOver olds x (F.body b) := by
  induction olds generalizing F with
  | nil => simp [Func.handOver, handedOver, Instr.substUses_nil]
  | cons v olds ih =>
      have hsubst : ∀ y : Operand, (y.subst [v] x).subst olds x = y.subst (v :: olds) x := by
        intro y
        by_cases hinst : ∃ w, x = .inst w
        · obtain ⟨w, rfl⟩ := hinst
          exact Operand.subst_subst_self (fun h => hx w rfl (List.mem_cons_of_mem v h)) y
        · exact Operand.subst_subst (fun w hw => hinst ⟨w, hw⟩) y
      have huses : ∀ I : Instr, (I.substUses [v] x).substUses olds x = I.substUses (v :: olds) x := by
        intro I
        simp [Instr.substUses, Function.comp_def, hsubst]
      show (Func.handOver ((F.replaceAllUsesWith v x).eraseFromParent v) olds x).body b = _
      rw [ih fun w hw h => hx w hw (List.mem_cons_of_mem v h)]
      simp only [handedOver, Func.eraseFromParent, Func.replaceAllUsesWith, List.filter_map,
        List.map_map, List.filter_filter, Function.comp_def, huses]
      refine congrArg _ (List.filter_congr fun I _ => ?_)
      rw [← Bool.decide_and, decide_eq_decide]
      simp [Instr.substUses, and_comm]

theorem handOver_cfg (F : Func) : (F.handOver olds x).cfg = F.cfg ∧
    (F.handOver olds x).blocks = F.blocks ∧ (F.handOver olds x).next = F.next := by
  unfold Func.handOver
  induction olds generalizing F with
  | nil => exact ⟨rfl, rfl, rfl⟩
  | cons v olds ih => exact ih _

end

/-! ## The function stays valid -/

/-- The values `olds` are computed where `p` can be used already. -/
structure HandsOver (F : Func) (olds : List ℕ) (p : ℕ) : Prop where
  not_mem : p ∉ olds
  available : ∀ v ∈ olds, F.AvailableAt v (.inst p)
  plain : ∀ b, ∀ I ∈ F.body b, I.id ∈ olds → I.op ≠ .phi ∧ I.op ≠ .terminator

section

variable {F : Func} {olds : List ℕ} {p b v : ℕ} {pre : List ℕ} {I : Instr} {l post : List Instr}
  {x : Operand}

theorem HandsOver.body (h : HandsOver F olds p) (b : ℕ) :
    (F.handOver olds (.inst p)).body b = handedOver olds (.inst p) (F.body b) :=
  handOver_body (fun w hw => by cases hw; exact h.not_mem) F b

theorem HandsOver.ids (h : HandsOver F olds p) (b : ℕ) :
    (F.handOver olds (.inst p)).ids b = (F.ids b).filter (· ∉ olds) := by
  rw [Func.ids, h.body, ids_handedOver]
  rfl

theorem HandsOver.mem_ids (h : HandsOver F olds p) :
    v ∈ (F.handOver olds (.inst p)).ids b ↔ v ∈ F.ids b ∧ v ∉ olds := by
  simp [h.ids]

theorem Func.WellFormed.handOver (hF : F.WellFormed) (h : HandsOver F olds p) :
    (F.handOver olds (.inst p)).WellFormed where
  entry_mem := by
    rw [(handOver_cfg F).1, (handOver_cfg F).2.1]
    exact hF.entry_mem
  succ_mem := by
    rw [(handOver_cfg F).1, (handOver_cfg F).2.1]
    exact hF.succ_mem
  body_mem := by
    intro b I hI
    rw [h.body] at hI
    obtain ⟨K, hK, -, -⟩ := mem_handedOver hI
    rw [(handOver_cfg F).2.1]
    exact hF.body_mem b K hK
  ids_nodup := fun b => h.ids b ▸ (hF.ids_nodup b).filter _
  ids_block := fun a b v ha hb => hF.ids_block a b v (h.mem_ids.1 ha).1 (h.mem_ids.1 hb).1
  fresh := fun b v hv => (handOver_cfg F).2.2 ▸ hF.fresh b v (h.mem_ids.1 hv).1
  phis_first := by
    intro b
    rw [h.body]
    exact List.pairwise_map.2 ((hF.phis_first b).sublist List.filter_sublist)
  terminated := by
    intro b hb
    rw [(handOver_cfg F).2.1] at hb
    obtain ⟨q, T, hq, hT, hqT⟩ := hF.terminated b hb
    have hTb : T ∈ F.body b := hq ▸ List.mem_append_right _ (List.mem_singleton_self _)
    have hold : T.id ∉ olds := fun hid => (h.plain b T hTb hid).2 hT
    refine ⟨handedOver olds (.inst p) q, T.substUses olds (.inst p), ?_, hT, ?_⟩
    · rw [h.body, hq, handedOver_append, handedOver_cons_of_notMem hold]
      rfl
    · intro K hK
      obtain ⟨I, hI, -, rfl⟩ := mem_handedOver hK
      exact hqT I hI
  incoming_phi := by
    intro b K hK hop
    rw [h.body] at hK
    obtain ⟨I, hI, -, rfl⟩ := mem_handedOver hK
    simp [Instr.substUses, hF.incoming_phi b I hI hop]

/-- Where one of the values is available, `p` is. -/
theorem HandsOver.available_of_old (h : HandsOver F olds p) (hF : F.WellFormed) {rest : List ℕ}
    (hpre : F.ids b = pre ++ rest) (hv : v ∈ olds) (hav : F.Available b pre v) :
    F.Available b pre p := by
  obtain ⟨c, l, I, post, hat, hp⟩ := h.available v hv
  have hids : F.ids c = l.map Instr.id ++ v :: post.map Instr.id := by
    rw [Func.ids, hat.body_eq, List.map_append, List.map_cons, hat.id_eq]
  have hvc : v ∈ F.ids c := hids ▸ List.mem_append_right _ (List.mem_cons_self ..)
  have hlc : ∀ u ∈ l.map Instr.id, u ∈ F.ids c := fun u hu => hids ▸ List.mem_append_left _ hu
  rcases hav with hav | ⟨d, hd, hdom⟩
  · obtain rfl := hF.ids_block c b v hvc (hpre ▸ List.mem_append_left _ hav)
    refine hp.imp_left fun hmem => ?_
    -- what stands ahead of `v` stands ahead of the point
    obtain ⟨s, t, rfl⟩ := List.append_of_mem hav
    have hnodup := hids ▸ hF.ids_nodup c
    have hnot : v ∉ l.map Instr.id := fun hv' =>
      (List.nodup_append.1 hnodup).2.2 _ hv' _ (List.mem_cons_self ..) rfl
    have hnot' : v ∉ post.map Instr.id :=
      (List.nodup_cons.1 (List.nodup_append.1 hnodup).2.1).1
    have heq : l.map Instr.id ++ v :: post.map Instr.id = s ++ v :: (t ++ rest) := by
      rw [← hids, hpre, List.append_assoc, List.cons_append]
    obtain ⟨rfl, -, -⟩ := (List.append_cons_inj_of_notMem hnot hnot').1 heq
    exact List.mem_append_left _ hmem
  · obtain rfl := hF.ids_block c d v hvc hd
    rcases hp with hmem | ⟨e, he, hdom'⟩
    · exact Or.inr ⟨c, hlc p hmem, hdom⟩
    · exact Or.inr ⟨e, he, hdom'.trans hdom⟩

theorem HandsOver.available_new (h : HandsOver F olds p) (hv : v ∉ olds) (hav : F.Available b pre v) :
    (F.handOver olds (.inst p)).Available b (pre.filter (· ∉ olds)) v := by
  unfold Func.Available
  rw [(handOver_cfg F).1]
  exact Cfg.Available.mono hav (fun a ha => h.mem_ids.2 ⟨ha, hv⟩) fun hmem =>
    List.mem_filter.2 ⟨hmem, by simpa using hv⟩

theorem HandsOver.all_subst (h : HandsOver F olds p) (hF : F.WellFormed) {rest : List ℕ}
    (hpre : F.ids b = pre ++ rest) (hx : x.All (F.Available b pre)) :
    (x.subst olds (.inst p)).All
      ((F.handOver olds (.inst p)).Available b (pre.filter (· ∉ olds))) := by
  cases x with
  | inst v =>
      show Operand.All _ (if v ∈ olds then Operand.inst p else Operand.inst v)
      split_ifs with hv
      · exact h.available_new h.not_mem (h.available_of_old hF hpre hv hx)
      · exact h.available_new hv hx
  | _ => trivial

theorem Func.Valid.handOver (hvalid : F.Valid) (hF : F.WellFormed) (h : HandsOver F olds p) :
    (F.handOver olds (.inst p)).Valid := by
  have hfrom : ∀ b (l done : List Instr), F.body b = done ++ l →
      F.BodyOk F.Available b (done.map Instr.id) l →
      (F.handOver olds (.inst p)).BodyOk (F.handOver olds (.inst p)).Available b
        ((done.map Instr.id).filter (· ∉ olds)) (handedOver olds (.inst p) l) := by
    intro b l
    induction l with
    | nil => intro done hbody hok; trivial
    | cons I l ih =>
        intro done hbody hok
        have hids : (done ++ [I]).map Instr.id = done.map Instr.id ++ [I.id] := List.map_append
        have hrest := ih (done ++ [I]) (by rw [hbody, List.append_assoc]; rfl) (hids ▸ hok.2)
        rw [hids, List.filter_append] at hrest
        by_cases hI : I.id ∈ olds
        · rw [handedOver_cons_of_mem hI]
          rwa [List.filter_cons_of_neg (by simpa using hI), List.filter_nil, List.append_nil] at hrest
        · rw [List.filter_cons_of_pos (by simpa using hI), List.filter_nil] at hrest
          rw [handedOver_cons_of_notMem hI]
          refine ⟨⟨fun y hy => ?_, fun q hq => ?_⟩, hrest⟩
          · obtain ⟨x, hx, rfl⟩ := List.mem_map.1 hy
            have hids : F.ids b = done.map Instr.id ++ (I :: l).map Instr.id := by
              rw [Func.ids, hbody, List.map_append]
            exact h.all_subst hF hids (hok.1.1 x hx)
          · obtain ⟨r, hr, rfl⟩ := List.mem_map.1 hq
            rw [h.ids]
            exact h.all_subst hF (List.append_nil _).symm (hok.1.2 r hr)
  intro b
  rw [h.body]
  exact hfrom b (F.body b) [] rfl (hvalid b)

theorem Func.PhisName.handOver (hphis : F.PhisName) (h : HandsOver F olds p) :
    (F.handOver olds (.inst p)).PhisName := by
  intro b K hK q hq
  rw [h.body] at hK
  obtain ⟨I, hI, -, rfl⟩ := mem_handedOver hK
  obtain ⟨r, hr, rfl⟩ := List.mem_map.1 hq
  rw [(handOver_cfg F).2.1]
  exact hphis b I hI r hr

/-- What other instructions could use of other values they can use. -/
theorem HandsOver.availableAt (h : HandsOver F olds p) (hv : v ∉ olds) (hx : x.All (· ∉ olds))
    (hav : F.AvailableAt v x) : (F.handOver olds (.inst p)).AvailableAt v x := by
  obtain ⟨b, l, I, post, hat, hav⟩ := hav
  have hid : I.id ∉ olds := hat.id_eq ▸ hv
  refine ⟨b, handedOver olds (.inst p) l, I.substUses olds (.inst p), handedOver olds (.inst p) post,
    ⟨?_, hat.id_eq, hat.not_phi⟩, ?_⟩
  · rw [h.body, hat.body_eq, handedOver_append, handedOver_cons_of_notMem hid]
  · rw [ids_handedOver]
    cases x with
    | inst u => exact h.available_new hx hav
    | _ => trivial

theorem HandsOver.hasPHI (h : HandsOver F olds p) (hv : v ∉ olds) (hphi : F.HasPHI b v) :
    (F.handOver olds (.inst p)).HasPHI b v := by
  obtain ⟨I, hI, rfl, hop⟩ := hphi
  refine ⟨I.substUses olds (.inst p), ?_, rfl, hop⟩
  rw [h.body]
  exact List.mem_map_of_mem (List.mem_filter.2 ⟨hI, by simpa using hv⟩)

end

/-! ## What is seen -/

section

variable {F₀ F : Func} {S : Pieces} {olds : List ℕ} {p n k : ℕ} {l old : List Instr}

theorem Operand.subst_seen (hp : n ≤ p) {y : Operand} (hy : y.All (· < n)) :
    (y.subst olds (.inst p)).subst [p] (.arg k) = y.subst olds (.arg k) := by
  cases y with
  | inst w =>
      have hw : w ≠ p := ne_of_lt (lt_of_lt_of_le hy hp)
      by_cases hold : w ∈ olds
      · simp [subst, hold]
      · simp [subst, hold, hw]
  | _ => rfl

/-- The old instructions are seen with the argument in the place of the values. -/
theorem oldOnes_seen {f : ℕ → ℕ} (hp : n ≤ p)
    (hold : ∀ I ∈ old, (∀ x ∈ I.args, x.All (· < n)) ∧ ∀ q ∈ I.incoming, q.2.All (· < n))
    (h : oldOnes n l = old.map (Instr.rename f)) :
    oldOnes n ((handedOver olds (.inst p) l).map (Instr.asArgument n [p] k))
      = (handedOver olds (.arg k) old).map (Instr.rename f) := by
  have hcomm : oldOnes n ((handedOver olds (.inst p) l).map (Instr.asArgument n [p] k))
      = ((oldOnes n l).filter fun I => I.id ∉ olds).map
          fun I => (I.substUses olds (.inst p)).asArgument n [p] k := by
    simp only [oldOnes, handedOver, List.map_map, List.filter_map, List.filter_filter,
      Function.comp_def, Instr.asArgument_id]
    refine congrArg _ (List.filter_congr fun I _ => ?_)
    exact Bool.and_comm ..
  have hone : ∀ I ∈ old, ((I.rename f).substUses olds (.inst p)).asArgument n [p] k
      = (I.substUses olds (.arg k)).rename f := by
    intro I hI
    have hid : I.id < n := by
      have hmem : I.rename f ∈ oldOnes n l := h ▸ List.mem_map_of_mem hI
      exact of_decide_eq_true (List.mem_filter.1 hmem).2
    obtain ⟨hargs, hin⟩ := hold I hI
    rw [Instr.asArgument, if_pos (show ((I.rename f).substUses olds (.inst p)).id < n from hid)]
    simp only [Instr.substUses, Instr.rename, List.map_map, Function.comp_def, Instr.mk.injEq, true_and]
    refine ⟨List.map_congr_left fun x hx => Operand.subst_seen hp (hargs x hx), ?_⟩
    exact List.map_congr_left fun q hq => congrArg _ (Operand.subst_seen hp (hin q hq))
  rw [hcomm, h, List.filter_map, List.map_map, handedOver, List.map_map]
  exact List.map_congr_left fun I hI => hone I (List.mem_filter.1 hI).1

theorem handedOver_seen_concat {q : List Instr} {T : Instr} (hT : T.id ∉ olds) :
    (handedOver olds (.inst p) (q ++ [T])).map (Instr.asArgument n [p] k)
      = (handedOver olds (.inst p) q).map (Instr.asArgument n [p] k) ++
        [(T.substUses olds (.inst p)).asArgument n [p] k] := by
  rw [handedOver_append, handedOver_cons_of_notMem hT, List.map_append]
  rfl

/-- What is seen of an instruction is an instruction of the same kind. -/
theorem mem_handedOver_seen {K : Instr}
    (hK : K ∈ (handedOver olds (.inst p) l).map (Instr.asArgument n [p] k)) :
    ∃ I ∈ l, K.id = I.id ∧ K.op = I.op := by
  obtain ⟨K', hK', rfl⟩ := List.mem_map.1 hK
  obtain ⟨I, hI, -, rfl⟩ := mem_handedOver hK'
  exact ⟨I, hI, Instr.asArgument_id .., Instr.asArgument_op ..⟩

/-- The pieces with the argument in the place of the values. -/
def Pieces.handOver (S : Pieces) (olds : List ℕ) (k : ℕ) : Pieces :=
  { S with rest := fun b => handedOver olds (.arg k) (S.rest b) }

section

variable (hS : Instruments F₀ F n S) (hclosed : F₀.Closed n) (h : HandsOver F olds p) (hp : n ≤ p) {b : ℕ}

include hclosed

/-- The operands of what is left of a piece are old. -/
theorem Func.Closed.rest_lt (hsuffix : S.rest b <:+ F₀.body (S.home b)) :
    ∀ I ∈ S.rest b, (∀ x ∈ I.args, x.All (· < n)) ∧ ∀ q ∈ I.incoming, q.2.All (· < n) := by
  intro I hI
  have hmem := hsuffix.subset hI
  exact ⟨hclosed.args_lt _ I hmem, fun q hq => (hclosed.incoming_lt _ I hmem q hq).2⟩

include hS h hp

/-- A piece with the old terminator. -/
theorem Instruments.handOver_last (hb : b ∈ F.blocks) {q : List Instr} {T : Instr}
    (hq : F.body b = q ++ [T]) (hT : T.op = .terminator) (hqT : ∀ I ∈ q, I.op ≠ .terminator)
    (hlt : T.id < n) (hrest : oldOnes n (F.body b) = (S.rest b).map (Instr.rename S.last))
    (hsucc : F.cfg.succ b = F₀.cfg.succ (S.home b)) (hlast : S.last (S.home b) = b) :
    Piece (F₀.handOver olds (.arg k)) ((F.handOver olds (.inst p)).asArgument n [p] k) n
      (S.handOver olds k) b := by
  have hbody : ((F.handOver olds (.inst p)).asArgument n [p] k).body b
      = (handedOver olds (.inst p) (F.body b)).map (Instr.asArgument n [p] k) :=
    congrArg (List.map _) (h.body b)
  have hTb : T ∈ F.body b := hq ▸ List.mem_append_right _ (List.mem_singleton_self _)
  have hold : T.id ∉ olds := fun hid => (h.plain b T hTb hid).2 hT
  refine .last ((handedOver olds (.inst p) q).map (Instr.asArgument n [p] k))
    ((T.substUses olds (.inst p)).asArgument n [p] k) ?_ ?_ ?_ ?_ ?_ ?_ hlast
  · rw [hbody, hq, handedOver_seen_concat hold]
  · rwa [Instr.asArgument_op]
  · intro K hK
    obtain ⟨I, hI, -, hop⟩ := mem_handedOver_seen hK
    exact hop ▸ hqT I hI
  · rwa [Instr.asArgument_id]
  · rw [hbody]
    exact oldOnes_seen hp (hclosed.rest_lt (hS.suffix b hb)) hrest
  · show (F.handOver olds (.inst p)).cfg.succ b = (F₀.handOver olds (.arg k)).cfg.succ _
    rw [(handOver_cfg F).1, (handOver_cfg F₀).1]
    exact hsucc

/-- A piece with a new terminator. -/
theorem Instruments.handOver_inner (holds : ∀ v ∈ olds, v < n) (hb : b ∈ F.blocks)
    {q old : List Instr} {T : Instr} (hq : F.body b = q ++ [T]) (hT : T.op = .terminator)
    (hqT : ∀ I ∈ q, I.op ≠ .terminator) (hnew : n ≤ T.id)
    (hrest : oldOnes n q = old.map (Instr.rename S.last))
    (hsucc : ∀ c ∈ F.cfg.succ b, c ∈ F.blocks ∧ c ∉ F₀.blocks ∧ S.home c = S.home b ∧
      S.rank c < S.rank b ∧ S.rest b = old ++ S.rest c)
    (hways : (T.args = [] ∧ (F.cfg.succ b).length = 1) ∨
      (T.args.length = 1 ∧ (F.cfg.succ b).length = 2)) :
    Piece (F₀.handOver olds (.arg k)) ((F.handOver olds (.inst p)).asArgument n [p] k) n
      (S.handOver olds k) b := by
  have hbody : ((F.handOver olds (.inst p)).asArgument n [p] k).body b
      = (handedOver olds (.inst p) (F.body b)).map (Instr.asArgument n [p] k) :=
    congrArg (List.map _) (h.body b)
  have hcfg : ((F.handOver olds (.inst p)).asArgument n [p] k).cfg = F.cfg := (handOver_cfg F).1
  have hold : T.id ∉ olds := fun hid => absurd (holds _ hid) (not_lt.2 hnew)
  obtain ⟨c, hc⟩ : ∃ c, c ∈ F.cfg.succ b := by
    refine List.exists_mem_of_length_pos ?_
    rcases hways with h | h <;> omega
  refine .inner ((handedOver olds (.inst p) q).map (Instr.asArgument n [p] k))
    (handedOver olds (.arg k) old) ((T.substUses olds (.inst p)).asArgument n [p] k) ?_ ?_ ?_ ?_ ?_ ?_ ?_
  · rw [hbody, hq, handedOver_seen_concat hold]
  · rwa [Instr.asArgument_op]
  · intro K hK
    obtain ⟨I, hI, -, hop⟩ := mem_handedOver_seen hK
    exact hop ▸ hqT I hI
  · rwa [Instr.asArgument_id]
  · refine oldOnes_seen hp (fun I hI => hclosed.rest_lt (hS.suffix b hb) I ?_) hrest
    rw [(hsucc c hc).2.2.2.2]
    exact List.mem_append_left _ hI
  · intro c hc
    rw [hcfg] at hc
    obtain ⟨hmem, hnot, hhome, hrank, hrestc⟩ := hsucc c hc
    show c ∈ (F.handOver olds (.inst p)).blocks ∧ c ∉ (F₀.handOver olds (.arg k)).blocks ∧ _
    rw [(handOver_cfg F).2.1, (handOver_cfg F₀).2.1]
    exact ⟨hmem, hnot, hhome, hrank, (congrArg _ hrestc).trans handedOver_append⟩
  · rw [hcfg, Instr.asArgument_new (show n ≤ (T.substUses olds (.inst p)).id from hnew)]
    simpa [Instr.substUses] using hways

end

/-- **The function whose reads were replaced by an argument is what is seen.** -/
theorem Instruments.handOver (hS : Instruments F₀ F n S) (hclosed : F₀.Closed n)
    (h : HandsOver F olds p) (hp : n ≤ p) (holds : ∀ v ∈ olds, v < n) :
    Instruments (F₀.handOver olds (.arg k)) ((F.handOver olds (.inst p)).asArgument n [p] k) n
      { S with rest := fun b => handedOver olds (.arg k) (S.rest b) } := by
  have hbody₀ : ∀ b, (F₀.handOver olds (.arg k)).body b = handedOver olds (.arg k) (F₀.body b) :=
    handOver_body (fun w hw => by cases hw) F₀
  have hcfg₀ : (F₀.handOver olds (.arg k)).cfg = F₀.cfg := (handOver_cfg F₀).1
  have hblocks₀ : (F₀.handOver olds (.arg k)).blocks = F₀.blocks := (handOver_cfg F₀).2.1
  have hcfg : ((F.handOver olds (.inst p)).asArgument n [p] k).cfg = F.cfg := (handOver_cfg F).1
  have hblocks : ((F.handOver olds (.inst p)).asArgument n [p] k).blocks = F.blocks :=
    (handOver_cfg F).2.1
  exact {
    entry_eq := by rw [hcfg, hcfg₀, hS.entry_eq]
    blocks_subset := hblocks₀ ▸ hblocks ▸ hS.blocks_subset
    home_eq := hblocks₀ ▸ hS.home_eq
    rest_eq := fun b hb => (congrArg _ (hS.rest_eq b (hblocks₀ ▸ hb))).trans (hbody₀ b).symm
    home_mem := fun b hb => hblocks₀ ▸ hS.home_mem b (hblocks ▸ hb)
    suffix := fun b hb => hbody₀ _ ▸ ((hS.suffix b (hblocks ▸ hb)).filter _).map _
    not_phi := by
      intro b hb hnot K hK
      obtain ⟨I, hI, -, rfl⟩ := mem_handedOver hK
      exact hS.not_phi b (hblocks ▸ hb) (hblocks₀ ▸ hnot) I hI
    last_inj := hblocks₀ ▸ hS.last_inj
    last_mem := fun b hb => hblocks ▸ hS.last_mem b (hblocks₀ ▸ hb)
    piece := by
      intro b hb
      rw [hblocks] at hb
      cases hS.piece b hb with
      | last q T hq hT hqT hlt hrest hsucc hlast =>
          exact hS.handOver_last hclosed h hp hb hq hT hqT hlt hrest hsucc hlast
      | inner q old T hq hT hqT hnew hrest hsucc hways =>
          exact hS.handOver_inner hclosed h hp holds hb hq hT hqT hnew hrest hsucc hways
    quiet := by
      intro b K hK hid
      have hbody : ((F.handOver olds (.inst p)).asArgument n [p] k).body b
          = (handedOver olds (.inst p) (F.body b)).map (Instr.asArgument n [p] k) :=
        congrArg (List.map _) (h.body b)
      rw [hbody] at hK
      obtain ⟨I, hI, hId, hop⟩ := mem_handedOver_seen hK
      rw [Instr.callsNothing, hop]
      exact hS.quiet b I hI (hId ▸ hid) }

end

end SchedPass
