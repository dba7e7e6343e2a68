import SchedPass.Weave.AsArgument
import SchedPass.Weave.Edits

set_option autoImplicit false

/-! # What a woven function is compared with

The origin of a woven function is the function before the weaving, or one in which an argument stands
in the place of a value that the weaving computes. The woven function is seen with that argument in the
place of the value; an edit of the function is the same edit of what is seen. -/

namespace SchedPass

/-- The function `func`, whose instructions lie below `next`. Its argument `arg` stands for the values
    `tasks` of the woven function, and the blocks `starts` are pieces of its entry. -/
structure Origin where
  func : Func
  next : ℕ
  tasks : List ℕ := []
  arg : ℕ := 0
  starts : List ℕ := []

/-- The function as it was before the weaving. -/
def Origin.of (F : Func) : Origin := { func := F, next := F.next }

/-- The woven function as it is compared with its origin. -/
def Origin.view (B : Origin) (F : Func) : Func := F.asArgument B.next B.tasks B.arg

section

variable {n k : ℕ} {ps : List ℕ} {F : Func} {b : ℕ} {l post new : List Instr} {I : Instr}

theorem Instr.asArgument_new (h : n ≤ I.id) : I.asArgument n ps k = I := if_neg (not_lt.2 h)

theorem map_asArgument_new (h : ∀ I ∈ new, n ≤ I.id) : new.map (Instr.asArgument n ps k) = new := by
  conv_rhs => rw [← List.map_id new]
  exact List.map_congr_left fun I hI => Instr.asArgument_new (h I hI)

theorem Instr.asArgument_nil (I : Instr) : I.asArgument n [] k = I := by
  unfold asArgument
  split_ifs
  · exact Instr.substUses_nil _ _
  · rfl

theorem Instr.asArgument_rename (f : ℕ → ℕ) (I : Instr) :
    (I.rename f).asArgument n ps k = (I.asArgument n ps k).rename f := by
  unfold asArgument
  rw [Instr.rename_id]
  split_ifs
  · simp [Instr.rename, Instr.substUses]
  · rfl

theorem map_id_asArgument (l : List Instr) :
    (l.map (Instr.asArgument n ps k)).map Instr.id = l.map Instr.id := by
  simp [List.map_map, Function.comp_def]

namespace Func

theorem asArgument_nil (F : Func) : F.asArgument n [] k = F := by
  have hbody : (F.asArgument n [] k).body = F.body := by
    funext b
    simp [asArgument, List.map_id'' Instr.asArgument_nil]
  cases F
  unfold asArgument at hbody ⊢
  exact congrArg (fun body => Func.mk _ _ body _) hbody

theorem asArgument_insertAt (hnew : ∀ I ∈ new, n ≤ I.id) (i : ℕ) :
    (F.insertAt b i new).asArgument n ps k = (F.asArgument n ps k).insertAt b i new := by
  unfold asArgument insertAt
  congr 1
  funext a
  by_cases ha : a = b
  · subst ha
    simp only [Function.update_self, List.map_append, List.map_take, List.map_drop,
      map_asArgument_new hnew]
  · simp only [Function.update_of_ne ha]

theorem asArgument_splitIf (hn : n ≤ F.next) (i : ℕ) (Cond : Operand) :
    (F.splitIf b i Cond []).asArgument n ps k = (F.asArgument n ps k).splitIf b i Cond [] := by
  have hcond : (F.condBr Cond []).asArgument n ps k = F.condBr Cond [] := Instr.asArgument_new hn
  have hthen : (F.thenBr []).asArgument n ps k = F.thenBr [] :=
    Instr.asArgument_new (hn.trans (Nat.le_succ _))
  have hmap : ∀ (f : ℕ → ℕ) (l : List Instr),
      (l.map (Instr.rename f)).map (Instr.asArgument n ps k)
        = (l.map (Instr.asArgument n ps k)).map (Instr.rename f) := by
    intro f l
    simp only [List.map_map, Function.comp_def, Instr.asArgument_rename]
  unfold asArgument splitIf
  dsimp only
  congr 1
  funext a
  rw [hmap, Function.apply_update fun _ => List.map (Instr.asArgument n ps k)]
  simp only [Function.apply_update fun _ => List.map (Instr.asArgument n ps k), List.map_append,
    List.map_take, List.map_drop, List.map_cons, List.map_nil, List.nil_append, hcond, hthen]
  rfl

variable (hF : F.WellFormed)

theorem asArgument_ids : (F.asArgument n ps k).ids b = F.ids b := map_id_asArgument _

include hF in
theorem WellFormed.asArgument : (F.asArgument n ps k).WellFormed where
  entry_mem := hF.entry_mem
  succ_mem := hF.succ_mem
  body_mem := by
    intro b I hI
    obtain ⟨K, hK, -⟩ := List.mem_map.1 hI
    exact hF.body_mem b K hK
  ids_nodup := fun b => by simpa only [asArgument_ids] using hF.ids_nodup b
  ids_block := fun a b v => by simpa only [asArgument_ids] using hF.ids_block a b v
  fresh := fun b v hv => hF.fresh b v (asArgument_ids ▸ hv)
  phis_first := fun b => by
    refine List.pairwise_map.2 ((hF.phis_first b).imp fun h => ?_)
    simpa only [Instr.asArgument_op] using h
  terminated := by
    intro b hb
    obtain ⟨q, T, hq, hT, hqT⟩ := hF.terminated b hb
    refine ⟨_, _, (congrArg (List.map _) hq).trans (by rw [List.map_append]; rfl), ?_, ?_⟩
    · rw [Instr.asArgument_op, hT]
    · intro I hI
      obtain ⟨K, hK, rfl⟩ := List.mem_map.1 hI
      rw [Instr.asArgument_op]
      exact hqT K hK
  incoming_phi := by
    intro b I hI hop
    obtain ⟨K, hK, rfl⟩ := List.mem_map.1 hI
    rw [Instr.asArgument_op] at hop
    have hincoming := hF.incoming_phi b K hK hop
    unfold Instr.asArgument
    split_ifs
    · simp [Instr.substUses, hincoming]
    · exact hincoming

theorem Point.asArgument (h : F.Point b l post) : (F.asArgument n ps k).Point b
    (l.map (Instr.asArgument n ps k)) (post.map (Instr.asArgument n ps k)) where
  body_eq := (congrArg (List.map _) h.body_eq).trans List.map_append
  not_phi := by
    intro I hI
    obtain ⟨K, hK, rfl⟩ := List.mem_map.1 hI
    rw [Instr.asArgument_op]
    exact h.not_phi K hK
  ne_nil := by simpa using h.ne_nil

end Func

end

/-! ## Edits of what is seen -/

theorem fresh_nil {F : Func} : F.Fresh [] := ⟨rfl, by simp, by simp, by simp⟩

section

variable {B : Origin} {F : Func} {S : Pieces} {b : ℕ} {l post new : List Instr} {Cond : Operand}

theorem Origin.instruments_insertAt (hS : Instruments B.func (B.view F) B.next S)
    (hpoint : F.Point b l post) (hnew : ∀ I ∈ new, B.next ≤ I.id)
    (hplain : ∀ I ∈ new, I.op ≠ .terminator) (hquiet : ∀ I ∈ new, I.callsNothing = true) :
    Instruments B.func (B.view (F.insertAt b l.length new)) B.next S := by
  have hview : (B.view F).Point b _ _ := hpoint.asArgument
  rw [view, Func.asArgument_insertAt hnew, ← List.length_map (Instr.asArgument B.next B.tasks B.arg)]
  exact hS.insertAt hview.body_eq hview.ne_nil hnew hplain hquiet

theorem Origin.instruments_splitIf (hS : Instruments B.func (B.view F) B.next S) (hF : F.WellFormed)
    (hpoint : F.Point b l post) (hn : B.next ≤ F.next) :
    ∃ i, Instruments B.func (B.view (F.splitIf b l.length Cond [])) B.next
      (S.splitIf (B.view F) b i) := by
  have hview : (B.view F).Point b _ _ := hpoint.asArgument
  have hlen : l.length = (l.map (Instr.asArgument B.next B.tasks B.arg)).length :=
    (List.length_map _).symm
  rw [view, Func.asArgument_splitIf hn, hlen]
  exact ⟨_, hS.splitIf hF.asArgument hview hn fresh_nil (by simp)⟩

end

end SchedPass
