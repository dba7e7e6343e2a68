import Mathlib.Data.Int.Notation
import Mathlib.Data.List.GetD
import SchedPass.Lib.ByteMem
import SchedPass.Plugin.Hooks

set_option autoImplicit false

/-! # The plan reader (`_plan_request_indices`)

The tile map comes out of another library's plan: a vector whose length pins the layout, two of its
entries (a count and a byte offset), and that many 32-bit words of an integer workspace. The reader
checks the length, the flag and the range, and falls back to one tile per request where they fail
(`planRequestIndices_of_not`); it does not look at the words. So what it returns is a map to request
indices exactly when the words it was pointed at are (`planRequestIndices_failSoft_iff`). -/

namespace SchedPass

/-! ## Inputs -/

/-- A tensor as its bytes, whatever its element type. -/
structure Workspace where
  numel : ℕ
  elementSize : ℕ
  bytes : List UInt8
  length_bytes : bytes.length = numel * elementSize

/-- The two attributes of an attention wrapper that the reader looks at. -/
structure Wrapper where
  planInfo : Option (List ℤ)
  intWorkspaceBuffer : Option Workspace

/-- A `PlanInfo` layout: the vector's length, the slot of the offset, and the slot that must be set. -/
structure PlanLayout where
  wantLen : ℕ
  reqField : Fin wantLen
  requireFlag : Option (Fin wantLen)

/-- `DecodePlanInfo`: offset in slot 3, gated on `split_kv` in slot 9. -/
def decodeLayout : PlanLayout := ⟨10, 3, some 9⟩

/-- `PrefillPlanInfo`: offset in slot 4, no gate. -/
def prefillLayout : PlanLayout := ⟨15, 4, none⟩

/-! ## Reading -/

/-- A word as a signed 32-bit integer. -/
def toInt32 (word : ℕ) : ℤ := Int.bmod word (2 ^ 32)

/-- `.view(torch.int32)` of a byte string. -/
def viewInt32 : List UInt8 → List ℤ
  | b₀ :: b₁ :: b₂ :: b₃ :: bs => toInt32 (ByteMem.ofBytes [b₀, b₁, b₂, b₃]) :: viewInt32 bs
  | _ => []

/-- The tile map and the tile count; `(none, n)` binds one tile per request. -/
def planRequestIndices (L : PlanLayout) (w : Wrapper) (n : ℕ) : Option (List ℤ) × ℕ :=
  match w.planInfo, w.intWorkspaceBuffer with
  | some v, some buf =>
      if v.length ≠ L.wantLen then
        (none, n)
      else if L.requireFlag.any fun flag : Fin L.wantLen => v.getD flag 0 = 0 then
        (none, n)
      else
        let padded := v.getD 0 0
        let reqOff := v.getD L.reqField 0
        let nbytes := buf.numel * buf.elementSize
        if padded < n ∨ reqOff < 0 ∨ reqOff + 4 * padded > nbytes then
          (none, n)
        else
          let ti := viewInt32 ((buf.bytes.drop reqOff.toNat).take (4 * padded.toNat))
          (some ti, padded.toNat)
  | _, _ => (none, n)

/-- What the two bindings share; `none` stands for a scheduler without the wrapper, or one whose
    attributes raise. -/
def bindTiles (L : PlanLayout) (w : Option Wrapper) (n : ℕ) : Option (List ℤ) × ℕ :=
  match w with
  | none => (none, n)
  | some w => planRequestIndices L w n

/-- `_tile_binding`. -/
def tileBinding : Option Wrapper → ℕ → Option (List ℤ) × ℕ := bindTiles decodeLayout

/-- `_prefill_tile_binding`. -/
def prefillTileBinding : Option Wrapper → ℕ → Option (List ℤ) × ℕ := bindTiles prefillLayout

/-! ## The checks -/

/-- The tile count that the vector names. -/
def paddedBatchSize (v : List ℤ) : ℕ := (v.getD 0 0).toNat

/-- The byte offset that the vector names. -/
def requestOffset (L : PlanLayout) (v : List ℤ) : ℕ := (v.getD L.reqField 0).toNat

/-- Word `k` of those the vector points at. -/
def requestWord (L : PlanLayout) (v : List ℤ) (buf : Workspace) (k : ℕ) : ℤ :=
  toInt32 (ByteMem.ofBytes ((buf.bytes.drop (requestOffset L v + 4 * k)).take 4))

/-- The vector has the layout's length, its flag is set, and it points at a range of the workspace. -/
structure LayoutOk (L : PlanLayout) (v : List ℤ) (buf : Workspace) (n : ℕ) : Prop where
  length : v.length = L.wantLen
  flag : ∀ flag ∈ L.requireFlag, v.getD flag 0 ≠ 0
  padded : (n : ℤ) ≤ v.getD 0 0
  reqOff : 0 ≤ v.getD L.reqField 0
  range : v.getD L.reqField 0 + 4 * v.getD 0 0 ≤ buf.bytes.length

/-- Word `k` is the index of one of `n` requests. -/
def IsRequest (n : ℕ) (word : ℤ) : Prop := 0 ≤ word ∧ word < n

instance (n : ℕ) (word : ℤ) : Decidable (IsRequest n word) := inferInstanceAs (Decidable (_ ∧ _))

variable {L : PlanLayout} {w : Wrapper} {v : List ℤ} {buf : Workspace} {n : ℕ}

/-! ## What is read -/

/-- The first four bytes and those behind. -/
theorem exists_firstWord {k : ℕ} {bs : List UInt8} (h : bs.length = 4 * (k + 1)) :
    ∃ b₀ b₁ b₂ b₃ rest, bs = b₀ :: b₁ :: b₂ :: b₃ :: rest ∧ rest.length = 4 * k := by
  match bs, h with
  | b₀ :: b₁ :: b₂ :: b₃ :: rest, h =>
      simp only [List.length_cons] at h
      exact ⟨b₀, b₁, b₂, b₃, rest, rfl, by omega⟩

theorem length_viewInt32 {k : ℕ} {bs : List UInt8} (h : bs.length = 4 * k) :
    (viewInt32 bs).length = k := by
  induction k generalizing bs with
  | zero =>
      obtain rfl := List.length_eq_zero_iff.1 (h.trans (Nat.mul_zero 4))
      rfl
  | succ k ih =>
      obtain ⟨b₀, b₁, b₂, b₃, rest, rfl, hrest⟩ := exists_firstWord h
      rw [viewInt32, List.length_cons, ih hrest]

/-- Entry `k` of the view is the word at byte `4 * k`. -/
theorem getElem?_viewInt32 {count k : ℕ} {bs : List UInt8} (h : bs.length = 4 * count)
    (hk : k < count) :
    (viewInt32 bs)[k]? = some (toInt32 (ByteMem.ofBytes ((bs.drop (4 * k)).take 4))) := by
  induction count generalizing bs k with
  | zero => exact absurd hk (Nat.not_lt_zero k)
  | succ count ih =>
      obtain ⟨b₀, b₁, b₂, b₃, rest, rfl, hrest⟩ := exists_firstWord h
      rw [viewInt32]
      cases k with
      | zero => rfl
      | succ k => exact ih hrest (by omega)

/-- Where a check fails, one tile per request. -/
theorem planRequestIndices_of_not
    (h : ∀ v buf, w.planInfo = some v → w.intWorkspaceBuffer = some buf → ¬ LayoutOk L v buf n) :
    planRequestIndices L w n = (none, n) := by
  unfold planRequestIndices
  split
  · next v buf hv hbuf =>
      have hnot := h v buf hv hbuf
      have hbytes := buf.length_bytes
      split
      · rfl
      split
      · rfl
      next hlen hflag =>
      dsimp only
      split
      · rfl
      next hrange =>
      refine absurd ⟨not_not.1 hlen, fun flag hmem hzero => hflag ?_, ?_, ?_, ?_⟩ hnot
      · rw [Option.mem_def.1 hmem]
        exact decide_eq_true hzero
      all_goals omega
  · rfl

/-- Where the checks pass, the words that the vector points at. -/
theorem planRequestIndices_of_layoutOk (hv : w.planInfo = some v)
    (hbuf : w.intWorkspaceBuffer = some buf) (h : LayoutOk L v buf n) :
    ∃ ti, planRequestIndices L w n = (some ti, paddedBatchSize v) ∧
      ti.length = paddedBatchSize v ∧
      ∀ k < paddedBatchSize v, ti[k]? = some (requestWord L v buf k) := by
  have hbytes := buf.length_bytes
  have hrange := h.range
  have hpadded := h.padded
  have hreqOff := h.reqOff
  have hlen : ((buf.bytes.drop (requestOffset L v)).take (4 * paddedBatchSize v)).length
      = 4 * paddedBatchSize v := by
    simp only [List.length_take, List.length_drop, requestOffset, paddedBatchSize]
    omega
  refine ⟨viewInt32 ((buf.bytes.drop (requestOffset L v)).take (4 * paddedBatchSize v)), ?_,
    length_viewInt32 hlen, fun k hk => ?_⟩
  · have hflag : ¬ (L.requireFlag.any fun flag : Fin L.wantLen => v.getD flag 0 = 0) = true := by
      simp only [Option.any_eq_true, decide_eq_true_eq, not_exists, not_and]
      exact fun flag hmem => h.flag flag hmem
    have hin : ¬ (v.getD 0 0 < n ∨ v.getD L.reqField 0 < 0 ∨
        v.getD L.reqField 0 + 4 * v.getD 0 0 > (buf.numel * buf.elementSize : ℕ)) := by
      omega
    simp only [planRequestIndices, hv, hbuf, if_neg (not_not.2 h.length), if_neg hflag, if_neg hin]
    rfl
  · rw [getElem?_viewInt32 hlen hk, requestWord, List.drop_take, List.take_take, List.drop_drop,
      min_eq_left (by omega)]

/-- The second component is the length of the map, or the number of requests. -/
theorem planRequestIndices_count (L : PlanLayout) (w : Wrapper) (n : ℕ) :
    (planRequestIndices L w n).2 = ((planRequestIndices L w n).1.map List.length).getD n := by
  by_cases hok : ∃ v buf, w.planInfo = some v ∧ w.intWorkspaceBuffer = some buf ∧ LayoutOk L v buf n
  · obtain ⟨v, buf, hv, hbuf, hok⟩ := hok
    obtain ⟨ti, hread, hlen, -⟩ := planRequestIndices_of_layoutOk hv hbuf hok
    rw [hread, Option.map_some, Option.getD_some, hlen]
  · rw [planRequestIndices_of_not fun v buf hv hbuf h => hok ⟨v, buf, hv, hbuf, h⟩]
    rfl

/-- The begin hook's tile count is the one that the binding returns. -/
theorem Batch.ntiles_bindTiles {K : Type} {b : Batch K} {reqs : List (Req K)} {w : Option Wrapper}
    (h : b.tileToReq = (bindTiles L w reqs.length).1) :
    b.ntiles reqs = (bindTiles L w reqs.length).2 := by
  cases w with
  | none =>
      simp only [Batch.ntiles, h]
      rfl
  | some w =>
      have hcount := planRequestIndices_count L w reqs.length
      simp only [bindTiles] at h ⊢
      rw [hcount, ← h, Batch.ntiles]
      cases b.tileToReq <;> rfl

/-! ## Fail-soft -/

/-- A tile map that may be believed: as many words as the vector says, at least one tile per request,
    read from inside the workspace, and each the index of a request. -/
structure ReadMap (L : PlanLayout) (w : Wrapper) (n : ℕ) (ti : List ℤ) : Prop where
  source : ∃ v buf, w.planInfo = some v ∧ w.intWorkspaceBuffer = some buf ∧
    (ti.length : ℤ) = v.getD 0 0 ∧ requestOffset L v + 4 * ti.length ≤ buf.bytes.length ∧
    ∀ k < ti.length, ti[k]? = some (requestWord L v buf k)
  count : n ≤ ti.length
  requests : ∀ i ∈ ti, IsRequest n i

/-- What the reader is to return: the fallback, or a tile map that may be believed; the fallback where
    a check fails or a word is not the index of a request; and nothing that the clamp changes. -/
structure FailSoft (L : PlanLayout) (w : Wrapper) (n : ℕ) (r : Option (List ℤ) × ℕ) : Prop where
  result : r = (none, n) ∨ ∃ ti, r = (some ti, ti.length) ∧ ReadMap L w n ti
  mismatch : (∀ v buf, w.planInfo = some v → w.intWorkspaceBuffer = some buf → ¬ LayoutOk L v buf n) →
    r = (none, n)
  garbage : ∀ v buf, w.planInfo = some v → w.intWorkspaceBuffer = some buf →
    (∃ k < paddedBatchSize v, ¬ IsRequest n (requestWord L v buf k)) → r = (none, n)
  clamp : ∀ ti, r.1 = some ti → ∀ i ∈ ti, min (max i 0) (n - 1 : ℤ) = i

/-- **The plan reader.** It is fail-soft exactly where a check fails or every word that the vector
    points at is the index of a request. -/
theorem planRequestIndices_failSoft_iff (L : PlanLayout) (w : Wrapper) (n : ℕ) :
    FailSoft L w n (planRequestIndices L w n) ↔
      ∀ v buf, w.planInfo = some v → w.intWorkspaceBuffer = some buf → LayoutOk L v buf n →
        ∀ k < paddedBatchSize v, IsRequest n (requestWord L v buf k) := by
  constructor
  · intro h v buf hv hbuf hok k hk
    by_contra hbad
    obtain ⟨ti, hread, -, -⟩ := planRequestIndices_of_layoutOk hv hbuf hok
    have hnone := h.garbage v buf hv hbuf ⟨k, hk, hbad⟩
    rw [hread] at hnone
    exact absurd (congrArg Prod.fst hnone) (by simp)
  · intro hwords
    by_cases hok : ∃ v buf, w.planInfo = some v ∧ w.intWorkspaceBuffer = some buf ∧ LayoutOk L v buf n
    · obtain ⟨v, buf, hv, hbuf, hok⟩ := hok
      obtain ⟨ti, hread, hlen, hget⟩ := planRequestIndices_of_layoutOk hv hbuf hok
      have hvalid := hwords v buf hv hbuf hok
      have hreq : ∀ i ∈ ti, IsRequest n i := by
        intro i hi
        obtain ⟨k, hk, rfl⟩ := List.getElem_of_mem hi
        have hword := hget k (hlen ▸ hk)
        rw [List.getElem?_eq_getElem hk] at hword
        rw [Option.some.inj hword]
        exact hvalid k (hlen ▸ hk)
      have hpadded := hok.padded
      have hreqOff := hok.reqOff
      have hrange := hok.range
      refine ⟨Or.inr ⟨ti, by rw [hread, hlen], ⟨v, buf, hv, hbuf, ?_, ?_, fun k hk => ?_⟩, ?_, hreq⟩,
        fun hnot => absurd hok (hnot v buf hv hbuf), ?_, ?_⟩
      · rw [hlen, paddedBatchSize]
        omega
      · rw [hlen, paddedBatchSize, requestOffset]
        omega
      · exact hget k (hlen ▸ hk)
      · rw [hlen, paddedBatchSize]
        omega
      · rintro v' buf' hv' hbuf' ⟨k, hk, hbad⟩
        cases hv.symm.trans hv'
        cases hbuf.symm.trans hbuf'
        exact absurd (hvalid k hk) hbad
      · intro ti' hti' i hi
        rw [hread] at hti'
        cases hti'
        obtain ⟨hlo, hhi⟩ := hreq i hi
        omega
    · have hnot : ∀ v buf, w.planInfo = some v → w.intWorkspaceBuffer = some buf →
          ¬ LayoutOk L v buf n := fun v buf hv hbuf h => hok ⟨v, buf, hv, hbuf, h⟩
      have hnone := planRequestIndices_of_not hnot
      refine ⟨Or.inl hnone, fun _ => hnone, fun _ _ _ _ _ => hnone, fun ti hti => ?_⟩
      rw [hnone] at hti
      exact absurd hti (by simp)

/-- Two requests, the first of them split into two tiles. -/
example : tileBinding (some ⟨some [3, 0, 0, 4, 0, 0, 0, 0, 0, 1],
    some ⟨4, 4, [9, 9, 9, 9, 0, 0, 0, 0, 0, 0, 0, 0, 1, 0, 0, 0], rfl⟩⟩) 2 = (some [0, 0, 1], 3) := by
  decide

/-- A decode vector that passes every check and points at the word 5, for a batch of one request. -/
def driftedWrapper : Wrapper where
  planInfo := some [1, 0, 0, 0, 0, 0, 0, 0, 0, 1]
  intWorkspaceBuffer := some ⟨1, 4, [5, 0, 0, 0], rfl⟩

/-- The word is returned, and clamped later. -/
theorem planRequestIndices_drifted :
    planRequestIndices decodeLayout driftedWrapper 1 = (some [5], 1) ∧
      ¬ FailSoft decodeLayout driftedWrapper 1 (planRequestIndices decodeLayout driftedWrapper 1) := by
  have hread : planRequestIndices decodeLayout driftedWrapper 1 = (some [5], 1) := by decide
  refine ⟨hread, fun h => ?_⟩
  have hclamp := h.clamp [5] (congrArg Prod.fst hread) 5 (List.mem_singleton.2 rfl)
  exact absurd hclamp (by decide)

end SchedPass
