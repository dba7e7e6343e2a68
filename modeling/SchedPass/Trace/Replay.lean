import Mathlib.Data.Int.Bitwise
import SchedPass.Lib.CommonPrefix

set_option autoImplicit false

/-! # Replaying a trace (`block_tokens`, `craft_input_ids`)

A record of the trace names the KV blocks of its prompt by their hashes. The prompt is crafted from one
block of tokens for each hash, up to the recorded length. Where the hashes cover that length, the prompt is
the blocks cut there (`craftInputIds_of_cover`), so two prompts share the prefix that their hashes share and,
when the blocks differ as the hashes do, no block more (`replay_prefix`). -/

namespace SchedPass

/-! ## The code -/

/-- Tokens per KV block. -/
def BLOCK : ℕ := 16

/-- Qwen2's vocabulary. -/
def VOCAB : ℕ := 151936

/-- A hash id, the vocabulary's size and the block's length. -/
abbrev BlockKey := ℤ × ℕ × ℕ

/-- `_BLOCK_CACHE`. -/
abbrev BlockCache := BlockKey → Option (List ℕ)

section

-- `randrange seed vocab i` is the `i`-th `randrange(vocab)` of a `random.Random(seed)`, for a positive `vocab`.
variable (randrange : ℤ → ℕ → ℕ → ℕ)

/-- The tokens that are drawn for a hash. -/
def drawTokens (hashId : ℤ) (vocab block : ℕ) : List ℕ :=
  (List.range block).map (randrange (hashId * 2654435761 + 0x9E3779B9) vocab)

/-- `block_tokens`. -/
def blockTokens (cache : BlockCache) (hashId : ℤ) (vocab block : ℕ) : List ℕ × BlockCache :=
  let key := (hashId, vocab, block)
  match cache key with
  | some b => (b, cache)
  | none =>
      let b := drawTokens randrange hashId vocab block
      (b, Function.update cache key (some b))

/-- The fields of a trace record that `craft_input_ids` reads, the numbers as `int` gives them. -/
structure TraceRecord where
  inputLength : Option ℤ
  hashIds : Option (List ℤ)
  chatId : Option ℤ

/-- `int(rec.get("input_length", 0)) or block`. -/
def TraceRecord.want (r : TraceRecord) (block : ℕ) : ℤ :=
  let n := r.inputLength.getD 0
  if n = 0 then block else n

/-- `rec.get("hash_ids", [])`. -/
def TraceRecord.hashes (r : TraceRecord) : List ℤ := r.hashIds.getD []

/-- The loop over the hashes. -/
def extendIds (vocab block : ℕ) (want : ℤ) : List ℤ → List ℕ → BlockCache → List ℕ × BlockCache
  | [], ids, cache => (ids, cache)
  | h :: hs, ids, cache =>
      let (b, cache) := blockTokens randrange cache h vocab block
      let ids := ids ++ b
      if want ≤ ids.length then (ids, cache) else extendIds vocab block want hs ids cache

/-- `while len(ids) < want: ids.extend(pad)`; a pad that is not empty needs at most one round a token. -/
def padIds (want : ℤ) (pad : List ℕ) : ℕ → List ℕ → List ℕ
  | 0, ids => ids
  | n + 1, ids => if ids.length < want then padIds want pad n (ids ++ pad) else ids

/-- `ids[:want]`. -/
def sliceTo (ids : List ℕ) (want : ℤ) : List ℕ :=
  ids.take (if 0 ≤ want then want.toNat else (ids.length + want).toNat)

/-- `craft_input_ids`; `none` when the padding does not end. -/
def craftInputIds (cache : BlockCache) (r : TraceRecord) (vocab block : ℕ) :
    Option (List ℕ) × BlockCache :=
  let want := r.want block
  let (ids, cache) := extendIds randrange vocab block want r.hashes [] cache
  if ids.length < want then
    let (pad, cache) := blockTokens randrange cache (Int.xor 0x7FFFFFFF (r.chatId.getD 0)) vocab block
    if pad = [] then (none, cache)
    else (some (sliceTo (padIds want pad (want - ids.length).toNat ids) want), cache)
  else (some (sliceTo ids want), cache)

/-! ## The cache -/

/-- A cache that calls of `block_tokens` have filled. -/
inductive Filled : BlockCache → Prop
  | empty : Filled fun _ => none
  | call {cache : BlockCache} (h : Filled cache) (hashId : ℤ) (vocab block : ℕ) :
      Filled (blockTokens randrange cache hashId vocab block).2

variable {randrange} {cache : BlockCache}

/-- **What is cached is what would be drawn.** -/
theorem Filled.eq_drawTokens (h : Filled randrange cache) {hashId : ℤ} {vocab block : ℕ} {b : List ℕ}
    (hb : cache (hashId, vocab, block) = some b) : b = drawTokens randrange hashId vocab block := by
  induction h with
  | empty => cases hb
  | @call cache _ hashId' vocab' block' ih =>
      rw [blockTokens] at hb
      split at hb
      · exact ih hb
      · dsimp only at hb
        rw [Function.update_apply] at hb
        split at hb
        · next hkey =>
            cases hkey
            exact (Option.some.inj hb).symm
        · exact ih hb

theorem Filled.blockTokens_fst (h : Filled randrange cache) (hashId : ℤ) (vocab block : ℕ) :
    (blockTokens randrange cache hashId vocab block).1 = drawTokens randrange hashId vocab block := by
  rw [blockTokens]
  split
  · next b hb => exact h.eq_drawTokens hb
  · rfl

theorem Filled.extendIds (h : Filled randrange cache) (vocab block : ℕ) (want : ℤ) (hs : List ℤ) (ids : List ℕ) :
    Filled randrange (extendIds randrange vocab block want hs ids cache).2 := by
  induction hs generalizing ids cache with
  | nil => exact h
  | cons hash hs ih =>
      rw [SchedPass.extendIds]
      dsimp only
      split
      · exact h.call hash vocab block
      · exact ih (h.call hash vocab block) _

/-- **A crafted prompt leaves the cache filled**, so the requests of a trace can share it. -/
theorem Filled.craftInputIds (h : Filled randrange cache) (r : TraceRecord) (vocab block : ℕ) :
    Filled randrange (craftInputIds randrange cache r vocab block).2 := by
  have hloop := h.extendIds vocab block (r.want block) r.hashes []
  rw [SchedPass.craftInputIds]
  dsimp only
  split
  · split
    · exact hloop.call _ vocab block
    · exact hloop.call _ vocab block
  · exact hloop

theorem length_drawTokens (hashId : ℤ) (vocab block : ℕ) :
    (drawTokens randrange hashId vocab block).length = block := by
  rw [drawTokens, List.length_map, List.length_range]

/-! ## Covered prompts -/

/-- The loop stops behind the wanted length, with the blocks of the hashes up to there. -/
theorem extendIds_of_cover (vocab block : ℕ) {want : ℕ} (hs : List ℤ) (ids : List ℕ)
    (hcover : want ≤ ids.length + block * hs.length) (h : Filled randrange cache) :
    want ≤ (extendIds randrange vocab block want hs ids cache).1.length ∧
      (extendIds randrange vocab block want hs ids cache).1.take want
        = (ids ++ hs.flatMap fun h => drawTokens randrange h vocab block).take want := by
  induction hs generalizing ids cache with
  | nil => simpa [extendIds] using hcover
  | cons hash hs ih =>
      have htokens := h.blockTokens_fst hash vocab block
      have hlen : (drawTokens randrange hash vocab block).length = block := length_drawTokens hash vocab block
      rw [extendIds]
      dsimp only
      rw [htokens, List.flatMap_cons, ← List.append_assoc]
      split
      · next hstop =>
          have hstop : want ≤ (ids ++ drawTokens randrange hash vocab block).length := by exact_mod_cast hstop
          exact ⟨hstop, (List.take_append_of_le_length hstop).symm⟩
      · refine ih _ ?_ (h.call hash vocab block)
        rw [List.length_append, hlen]
        rw [List.length_cons, Nat.mul_succ] at hcover
        omega

/-- **A covered prompt** is the blocks of its hashes, cut at the wanted length. -/
theorem craftInputIds_of_cover (h : Filled randrange cache) (r : TraceRecord) (vocab block : ℕ) {want : ℕ}
    (hwant : r.want block = want) (hcover : want ≤ block * r.hashes.length) :
    (craftInputIds randrange cache r vocab block).1
      = some ((r.hashes.flatMap fun h => drawTokens randrange h vocab block).take want) := by
  obtain ⟨hlen, htake⟩ := extendIds_of_cover vocab block r.hashes [] (by simpa using hcover) h
  rw [craftInputIds]
  dsimp only
  rw [hwant, if_neg (by exact_mod_cast not_lt.2 hlen), sliceTo, if_pos (Int.natCast_nonneg _),
    Int.toNat_natCast, htake, List.nil_append]

/-- The number of tokens wanted of a length that is not negative. -/
theorem TraceRecord.exists_want (r : TraceRecord) (h : 0 ≤ r.inputLength.getD 0) (block : ℕ) :
    ∃ want : ℕ, r.want block = want := by
  by_cases hzero : r.inputLength.getD 0 = 0
  · exact ⟨block, if_pos hzero⟩
  · exact ⟨_, (if_neg hzero).trans (Int.toNat_of_nonneg h).symm⟩

/-! ## Two prompts -/

/-- **Replay keeps the shared prefix**: the prompts have the wanted lengths, agree as far as the hashes do, and
share as many full blocks as that leaves. -/
theorem replay_prefix {cacheA cacheB : BlockCache} (hA : Filled randrange cacheA) (hB : Filled randrange cacheB)
    (vocab : ℕ) (rA rB : TraceRecord) (hlenA : 0 ≤ rA.inputLength.getD 0) (hlenB : 0 ≤ rB.inputLength.getD 0)
    (hcoverA : rA.want BLOCK ≤ 16 * rA.hashes.length) (hcoverB : rB.want BLOCK ≤ 16 * rB.hashes.length)
    (hinj : Set.InjOn (fun h => (blockTokens randrange cacheA h vocab BLOCK).1)
      {h | h ∈ rA.hashes ∨ h ∈ rB.hashes}) :
    ∃ (wantA wantB : ℕ) (a b : List ℕ), rA.want BLOCK = wantA ∧ rB.want BLOCK = wantB ∧
      (craftInputIds randrange cacheA rA vocab BLOCK).1 = some a ∧
      (craftInputIds randrange cacheB rB vocab BLOCK).1 = some b ∧
      a.length = wantA ∧ b.length = wantB ∧
      a.take (min wantA (min wantB (16 * commonPrefixLength rA.hashes rB.hashes)))
        = b.take (min wantA (min wantB (16 * commonPrefixLength rA.hashes rB.hashes))) ∧
      commonPrefixLength (fullBlocks BLOCK a) (fullBlocks BLOCK b)
        = min (wantA / 16) (min (wantB / 16) (commonPrefixLength rA.hashes rB.hashes)) := by
  obtain ⟨wantA, hwantA⟩ := rA.exists_want hlenA BLOCK
  obtain ⟨wantB, hwantB⟩ := rB.exists_want hlenB BLOCK
  have hcovA : wantA ≤ BLOCK * rA.hashes.length := by rw [hwantA] at hcoverA; exact_mod_cast hcoverA
  have hcovB : wantB ≤ BLOCK * rB.hashes.length := by rw [hwantB] at hcoverB; exact_mod_cast hcoverB
  simp only [hA.blockTokens_fst] at hinj
  let tokens := fun h => drawTokens randrange h vocab BLOCK
  have hlen (hs : List ℤ) : ∀ h ∈ hs, (tokens h).length = BLOCK := fun h _ => length_drawTokens h vocab BLOCK
  refine ⟨wantA, wantB, _, _, hwantA, hwantB, craftInputIds_of_cover hA rA vocab BLOCK hwantA hcovA,
    craftInputIds_of_cover hB rB vocab BLOCK hwantB hcovB, ?_, ?_, ?_, ?_⟩
  · rw [List.length_take, length_flatMap_blocks _ (hlen _), min_eq_left hcovA]
  · rw [List.length_take, length_flatMap_blocks _ (hlen _), min_eq_left hcovB]
  · rw [List.take_take, List.take_take, min_eq_left (min_le_left _ _),
      min_eq_left ((min_le_right _ _).trans (min_le_left _ _))]
    refine take_flatMap_eq (hlen _) (hlen _) ?_
    rw [Nat.mul_comm]
    exact (min_le_right _ _).trans (min_le_right _ _)
  · rw [fullBlocks_take_flatMap (by decide) _ (hlen _) hcovA, fullBlocks_take_flatMap (by decide) _ (hlen _) hcovB,
      commonPrefixLength_map hinj (fun h hmem => Or.inl (List.mem_of_mem_take hmem))
        (fun h hmem => Or.inr (List.mem_of_mem_take hmem)),
      commonPrefixLength_take _ _ (Nat.div_le_of_le_mul hcovA) (Nat.div_le_of_le_mul hcovB)]
    rfl

end

/-- Two prompts of 20 and 32 tokens, which share their first block. -/
theorem replay_prefix_shared :
    let drawn : ℤ → List ℕ := fun seed =>
      if seed = 29198793379 then [64962, 137867, 147718, 122624, 131898, 12779, 47699, 82912, 88281, 75554, 122978,
        9098, 63043, 119175, 14927, 148049]
      else if seed = 31853229140 then [63184, 89147, 112391, 13154, 31094, 98262, 138236, 109972, 140337, 119299,
        43561, 94290, 142642, 7437, 100964, 1370]
      else [133630, 36767, 132650, 115213, 10378, 32055, 82298, 149793, 90436, 138910, 113022, 16233, 83911, 51886,
        138657, 15285]
    let randrange : ℤ → ℕ → ℕ → ℕ := fun seed _ i => (drawn seed).getD i 0
    let rA : TraceRecord := { inputLength := some 20, hashIds := some [10, 11], chatId := some 1 }
    let rB : TraceRecord := { inputLength := some 32, hashIds := some [10, 12], chatId := some 2 }
    ∃ a b : List ℕ,
      (craftInputIds randrange (fun _ => none) rA VOCAB BLOCK).1 = some a ∧
      (craftInputIds randrange (fun _ => none) rB VOCAB BLOCK).1 = some b ∧
      a.length = 20 ∧ b.length = 32 ∧ a.take 16 = b.take 16 ∧
      commonPrefixLength (fullBlocks BLOCK a) (fullBlocks BLOCK b) = 1 := by
  intro drawn randrange rA rB
  have hinj : Set.InjOn (fun h => (blockTokens randrange (fun _ => none) h VOCAB BLOCK).1)
      {h | h ∈ rA.hashes ∨ h ∈ rB.hashes} := by
    have hmem : {h | h ∈ rA.hashes ∨ h ∈ rB.hashes} = {10, 11, 12} := by
      ext h
      simp only [rA, rB, TraceRecord.hashes, Option.getD_some, Set.mem_ofPred_eq, List.mem_cons, List.not_mem_nil,
        or_false, Set.mem_insert_iff, Set.mem_singleton_iff]
      tauto
    rw [hmem]
    rintro h (rfl | rfl | rfl) h' (rfl | rfl | rfl) heq
    all_goals first | rfl | exact absurd heq (by decide)
  obtain ⟨wantA, wantB, a, b, hwantA, hwantB, ha, hb, hlenA, hlenB, htake, hblocks⟩ :=
    replay_prefix .empty .empty VOCAB rA rB (by decide) (by decide) (by decide) (by decide) hinj
  obtain rfl : 20 = wantA := Int.ofNat.inj hwantA
  obtain rfl : 32 = wantB := Int.ofNat.inj hwantB
  exact ⟨a, b, ha, hb, hlenA, hlenB, htake, hblocks⟩

end SchedPass
