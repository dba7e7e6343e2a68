import Mathlib.Algebra.BigOperators.Group.Finset.Piecewise
import SchedPass.WorkQueue.Progress

set_option autoImplicit false

/-! # What ticket and CLC launches compute

On a 1-D grid the blocks of a launch are numbered by their index on the slot axis, so the raw ids
offered are an initial segment: the tickets continue where the grid ends, and a CLC launch offers
its own blocks and nothing else. The tasks run are the images of that segment under the driver's
remap. The ticket launch covers `[0, num_tasks)`; the CLC launch covers its grid only when
`num_tasks` is no smaller and the table keeps the grid's blocks inside the grid. -/

namespace SchedPass

variable {L : Launch} {n g q : ℕ}

/-! ## 1-D grids -/

/-- A grid of `g` blocks along the slot axis, with extent 1 on the other two. -/
structure LinearGrid (L : Launch) (g : ℕ) : Prop where
  axis : L.C.slotAxis = 0 ∨ L.C.slotAxis = 1 ∨ L.C.slotAxis = 2
  shape : Grid1D L.C L.nctaid
  extent : nctaidIntrinsic L.C.slotAxis L.nctaid = g

/-- The block with index `i` on one axis and 0 on the others. -/
def Dim3.along : Axis → ℕ → Dim3
  | .x, i => ⟨i, 0, 0⟩
  | .y, i => ⟨0, i, 0⟩
  | .z, i => ⟨0, 0, i⟩

@[simp] theorem Dim3.get_along (a : Axis) (i : ℕ) : (Dim3.along a i).get a = i := by
  cases a <;> rfl

theorem Dim3.along_injective (a : Axis) : Function.Injective (Dim3.along a) := by
  intro i j h
  rw [← get_along a i, h, get_along]

@[simp] theorem Launch.first_along (i : ℕ) :
    L.first (Dim3.along (axisOf L.C.slotAxis) i) = i := Dim3.get_along _ i

theorem LinearGrid.mem_blocks (h : LinearGrid L g) {b : Dim3} :
    b ∈ L.blocks ↔ ∃ i < g, Dim3.along (axisOf L.C.slotAxis) i = b := by
  obtain ⟨haxis, ⟨h₁, h₂⟩, hext⟩ := h
  obtain ⟨x, y, z⟩ := b
  rw [Launch.mem_blocks]
  rcases haxis with ha | ha | ha <;> rw [ha] at h₁ h₂ hext ⊢ <;>
    simp [nctaidIntrinsic, axisOf, Dim3.get, Int.tmod] at h₁ h₂ hext <;>
    simp [h₁, h₂, hext, axisOf, Dim3.along, eq_comm] <;> tauto

theorem LinearGrid.blocks_eq (h : LinearGrid L g) :
    L.blocks = (Finset.range g).image (Dim3.along (axisOf L.C.slotAxis)) := by
  ext b
  simp only [h.mem_blocks, Finset.mem_image, Finset.mem_range]

theorem LinearGrid.sum_first {M : Type} [AddCommMonoid M] (h : LinearGrid L g) (f : ℕ → M) :
    ∑ b ∈ L.blocks, f (L.first b) = ∑ i ∈ Finset.range g, f i := by
  rw [h.blocks_eq, Finset.sum_image fun i _ j _ hij => Dim3.along_injective _ hij]
  simp only [Launch.first_along]

theorem LinearGrid.card_loopBlocks (h : LinearGrid L g) : (loopBlocks L n).card = min g n := by
  have hfilter : (Finset.range g).filter (· < n) = Finset.range (min g n) := by
    ext i
    simp
  rw [loopBlocks, Finset.card_filter, h.sum_first (fun i => if i < n then 1 else 0),
    ← Finset.card_filter, hfilter, Finset.card_range]

/-! ## The raw ids offered -/

theorem sum_offer_range (n g : ℕ) :
    ∑ i ∈ Finset.range g, offer n i = Multiset.range (min g n) := by
  induction g with
  | zero => simp
  | succ g ih =>
      rw [Finset.sum_range_succ, ih]
      by_cases hg : g < n
      · rw [offer_of_lt hg, min_eq_left hg.le, min_eq_left (Nat.succ_le_of_lt hg),
          Multiset.range_succ, add_comm, Multiset.singleton_add]
      · have hle := not_lt.1 hg
        rw [offer_of_le hle, add_zero, min_eq_right hle, min_eq_right (hle.trans g.le_succ)]

/-- The primed counter continues where the grid ends. -/
theorem range_add_tickets (W n : ℕ) :
    Multiset.range (min W n) + (List.Ico W n : Multiset ℕ) = Multiset.range n := by
  rcases le_total W n with hle | hle
  · rw [min_eq_left hle, Multiset.range, Multiset.range, ← List.Ico.zero_bot, ← List.Ico.zero_bot,
      Multiset.coe_add, List.Ico.append_consecutive (Nat.zero_le W) hle]
  · rw [min_eq_right hle, List.Ico.eq_nil_of_le hle]
    exact add_zero _

/-- **A terminated ticket launch** has run the tasks of `[0, num_tasks)`. -/
theorem ticket_tasks_of_terminated (hL : ClaimLaunch L n) (hmode : L.useCLC = false) {W : ℕ}
    (hgrid : LinearGrid L W) (hW : 1 ≤ W) (hcap : n + W ≤ 2 ^ 32) {s : Grid}
    (h : Reaches (Step L) (L.start W) s) (hterm : Terminated L s) {t : ℕ} (ht : t < L.threads) :
    s.tasks L t = (Multiset.range n).map L.task := by
  have hpos := hL.pos
  have hcard := hgrid.card_loopBlocks (n := n)
  have hB : BoundedClaims L n W := ⟨hL, fun _ => by omega⟩
  have hdec : DecodesOwn L := fun hclc => absurd (hmode.symm.trans hclc) (by decide)
  have hloop : (loopBlocks L n).Nonempty := Finset.card_pos.1 (by omega)
  rw [tasks_eq_map, logs_of_terminated hB hdec (fun _ => by omega) (fun _ => hloop) h hterm ht,
    hgrid.sum_first, sum_offer_range, ticketsLeft, hmode, if_neg Bool.false_ne_true, Nat.add_zero,
    range_add_tickets]

/-- **A terminated CLC launch** whose claims decode their victim has run the tasks of its own blocks,
    as far as `num_tasks` admits them. -/
theorem clc_tasks_of_terminated (hL : ClaimLaunch L n) (hmode : L.useCLC = true)
    (hdec : DecodesOwn L) (hgrid : LinearGrid L g) {s : Grid} (h : Reaches (Step L) (L.start q) s)
    (hterm : Terminated L s) {t : ℕ} (ht : t < L.threads) :
    s.tasks L t = (Multiset.range (min g n)).map L.task := by
  have hne : L.useCLC ≠ false := by simp [hmode]
  have hB : BoundedClaims L n q := ⟨hL, fun hf => absurd hf hne⟩
  rw [tasks_eq_map, logs_of_terminated hB hdec (fun hf => absurd hf hne)
    (fun hf => absurd hf hne) h hterm ht, hgrid.sum_first, sum_offer_range, ticketsLeft, if_pos hmode,
    add_zero]

/-! ## The driver's remap on the table -/

theorem Launch.task_of_unordered (h : ¬ (L.C.indirect = true ∧ L.R.taskOrder.Armed)) (raw : ℕ) :
    L.task raw = raw := by
  simp only [Launch.task, emitOrderRemap]
  split
  · rfl
  · next hav =>
      have hind : L.C.indirect = true := by
        simp only [Bool.or_eq_true, Bool.not_eq_true', not_or, Bool.not_eq_false] at hav
        exact hav.2
      have harm : (rtBuffer L.R.taskOrder).2 = false := by
        simpa [RtSlot.Armed] using fun harm => h ⟨hind, harm⟩
      simp [harm]

theorem Launch.task_of_ordered (hL : ClaimLaunch L n) (hind : L.C.indirect = true)
    (horder : L.R.taskOrder.Armed)
    (hsz : loadOrderSize L.mem L.R.ctrl.base = 0 ∨ loadOrderSize L.mem L.R.ctrl.base = n) {raw : ℕ}
    (hraw : raw < L.C.maxTasks) :
    L.task raw = clampBelow n raw (tableWord L.mem L.R.taskOrder.base raw) := by
  rw [Launch.task, emitOrderRemap_eq hind horder hL.ntasks hsz, if_pos hraw]

/-- A table at the order slot that permutes `[0, n)` makes the remap permute `[0, n)`. -/
theorem Launch.task_permutesBelow (hL : ClaimLaunch L n) (hmax : n ≤ L.C.maxTasks)
    (hsz : loadOrderSize L.mem L.R.ctrl.base = 0 ∨ loadOrderSize L.mem L.R.ctrl.base = n)
    (hperm : PermutesBelow (tableWord L.mem L.R.taskOrder.base) n) : PermutesBelow L.task n := by
  by_cases hord : L.C.indirect = true ∧ L.R.taskOrder.Armed
  · refine hperm.congr fun i hi => ?_
    rw [Launch.task_of_ordered hL hord.1 hord.2 hsz (hi.trans_le hmax), clampBelow,
      if_pos (hperm.lt hi)]
  · exact PermutesBelow.of_eq_self fun i _ => Launch.task_of_unordered hord i

/-! ## Ticket launches -/

/-- **The ticket queue runs every task exactly once.** Whatever the interleaving and the number of
    workers: every run is finite and can be continued to termination, a terminated run has run each
    task of `[0, num_tasks)` once and no other, only the last claim of a worker can fail, and the
    threads of a CTA agree on every raw id. -/
theorem ticketLaunch_exactlyOnce (L : Launch) (n W : ℕ) (hmode : L.useCLC = false)
    (harmed : ClaimArmed L.useCLC L.R) (hgrid : LinearGrid L W) (hW : 1 ≤ W)
    (hn : loadNumTasks L.mem L.R.ctrl.base = n) (hpos : 0 < n) (hcap : n + W ≤ 2 ^ 32)
    (hmax : n ≤ L.C.maxTasks)
    (hsz : loadOrderSize L.mem L.R.ctrl.base = 0 ∨ loadOrderSize L.mem L.R.ctrl.base = n)
    (hperm : PermutesBelow (tableWord L.mem L.R.taskOrder.base) n) :
    RunsExactlyOnce L (L.start W) n ∧
      ∀ s, Reaches (Step L) (L.start W) s → ∀ b c, s.cta b = some c →
        (∀ v ∈ c.claims.dropLast, v < n) ∧
          ∀ t < L.threads, ∀ u < L.threads, ∀ i (hit : i < (c.thread t).log.length)
            (hiu : i < (c.thread u).log.length), (c.thread t).log[i] = (c.thread u).log[i] := by
  have hL : ClaimLaunch L n := ⟨harmed, hgrid.shape, hn, hpos⟩
  have hB : BoundedClaims L n W := ⟨hL, fun _ => by rw [hgrid.card_loopBlocks]; omega⟩
  constructor
  · rw [runsExactlyOnce_iff hB fun _ => by omega]
    intro s hs hterm t ht
    rw [ticket_tasks_of_terminated hL hmode hgrid hW hcap hs hterm ht,
      PermutesBelow.map_range_iff]
    exact Launch.task_permutesBelow hL hmax hsz hperm
  · intro s hs b c hc
    have hcta := (GridOk.reaches hL hs).ctas b c hc
    exact ⟨hcta.claims_lt, fun t ht u hu i hit hiu => hcta.same_raw ht hu hit hiu⟩

/-- A launch of `g` blocks along axis `x`, with `num_tasks` = `n`, a matching stamp and a direct
    table, two threads a block. -/
def launchX (useCLC : Bool) (table : List ℕ) (n g : ℕ) : Launch where
  C := {}
  useCLC := useCLC
  R := bakedSlots
  mem := planeImage 64 1024 table n n
  nctaid := ⟨g, 1, 1⟩
  threads := 2
  threads_pos := Nat.two_pos

theorem launchX_linearGrid (useCLC : Bool) (table : List ℕ) (n g : ℕ) :
    LinearGrid (launchX useCLC table n g) g := ⟨Or.inl rfl, ⟨rfl, rfl⟩, rfl⟩

theorem ticketLaunch_exactlyOnce_rotation :
    RunsExactlyOnce (launchX false [2, 0, 1] 3 2) ((launchX false [2, 0, 1] 3 2).start 2) 3 :=
  (ticketLaunch_exactlyOnce (launchX false [2, 0, 1] 3 2) 3 2 rfl (by decide)
    (launchX_linearGrid ..) (by decide) (by decide) (by decide) (by decide) (by decide) (by decide)
    (by decide)).1

/-! ## CLC launches under stale control data -/

/-- What the driver takes as block `i`'s entry: the word at the order slot, if it is in range. -/
def slotEntry (L : Launch) (n i : ℕ) : ℕ := clampBelow n i (tableWord L.mem L.R.taskOrder.base i)

theorem decodesOwn_of_axis (h : L.C.slotAxis = 0) : DecodesOwn L := by
  intro _ v _
  rw [Launch.first, h]
  rfl

theorem map_range_min_iff {f : ℕ → ℕ} :
    (Multiset.range (min g n)).map f = Multiset.range g ↔ g ≤ n ∧ PermutesBelow f g := by
  constructor
  · intro h
    have hcard := congrArg Multiset.card h
    rw [Multiset.card_map, Multiset.card_range, Multiset.card_range] at hcard
    have hle : g ≤ n := min_eq_left_iff.1 hcard
    rw [min_eq_left hle] at h
    exact ⟨hle, PermutesBelow.map_range_iff.1 h⟩
  · rintro ⟨hle, hperm⟩
    rw [min_eq_left hle]
    exact PermutesBelow.map_range_iff.2 hperm

/-- A CLC launch is exactly once when its grid is covered by `num_tasks` and the remap permutes it. -/
theorem clc_runsExactlyOnce_iff (hL : ClaimLaunch L n) (hmode : L.useCLC = true)
    (hdec : DecodesOwn L) (hgrid : LinearGrid L g) :
    RunsExactlyOnce L (L.start q) g ↔ g ≤ n ∧ PermutesBelow L.task g := by
  have hne : L.useCLC ≠ false := by simp [hmode]
  have hB : BoundedClaims L n q := ⟨hL, fun hf => absurd hf hne⟩
  rw [runsExactlyOnce_iff hB fun hf => absurd hf hne, ← map_range_min_iff]
  constructor
  · intro h
    obtain ⟨s, hs, hterm⟩ := exists_terminated hB (.start fun hf => absurd hf hne)
    rw [← clc_tasks_of_terminated hL hmode hdec hgrid hs hterm L.threads_pos]
    exact h s hs hterm 0 L.threads_pos
  · intro h s hs hterm t ht
    rw [clc_tasks_of_terminated hL hmode hdec hgrid hs hterm ht, h]

theorem Launch.task_permutesBelow_iff (hL : ClaimLaunch L n) (hmax : n ≤ L.C.maxTasks)
    (hsz : loadOrderSize L.mem L.R.ctrl.base = 0 ∨ loadOrderSize L.mem L.R.ctrl.base = n)
    (hgn : g ≤ n) : PermutesBelow L.task g ↔
      (L.C.indirect = true → L.R.taskOrder.Armed → PermutesBelow (slotEntry L n) g) := by
  by_cases hord : L.C.indirect = true ∧ L.R.taskOrder.Armed
  · have htask : ∀ i < g, L.task i = slotEntry L n i := fun i hi =>
      Launch.task_of_ordered hL hord.1 hord.2 hsz ((hi.trans_le hgn).trans_le hmax)
    constructor
    · exact fun h _ _ => h.congr htask
    · exact fun h => (h hord.1 hord.2).congr fun i hi => (htask i hi).symm
  · refine iff_of_true (PermutesBelow.of_eq_self fun i _ => Launch.task_of_unordered hord i) ?_
    exact fun hind horder => absurd ⟨hind, horder⟩ hord

/-- **Stale control data in a CLC launch.** A launch of `g` blocks under a published `num_tasks` of
    `n` runs every task of its grid exactly once if and only if the grid has not grown past `n` and
    the words the driver reads permute the grid. For a direct table, which permutes `[0, n)`, that is
    to say that no block of the grid has an entry outside the grid. -/
theorem clcLaunch_exactlyOnce_iff (L : Launch) (n g q : ℕ) (hmode : L.useCLC = true)
    (hctrl : L.R.ctrl.Armed) (haxis : L.C.slotAxis = 0) (hgrid : LinearGrid L g)
    (hn : loadNumTasks L.mem L.R.ctrl.base = n) (hpos : 0 < n) (hmax : n ≤ L.C.maxTasks)
    (hsz : loadOrderSize L.mem L.R.ctrl.base = 0 ∨ loadOrderSize L.mem L.R.ctrl.base = n)
    (hperm : PermutesBelow (orderTable L.C L.R L.mem) n) :
    (RunsExactlyOnce L (L.start q) g ↔ g ≤ n ∧
        (L.C.indirect = true → L.R.taskOrder.Armed → PermutesBelow (slotEntry L n) g)) ∧
      (L.C.indirect = true → L.R.taskOrder.Armed → L.C.orderIndirect = false →
        (RunsExactlyOnce L (L.start q) g ↔
          g ≤ n ∧ ∀ i < g, orderTable L.C L.R L.mem i < g)) := by
  have harmed : ClaimArmed L.useCLC L.R := ⟨hctrl, fun hf => by simp [hmode] at hf⟩
  have hL : ClaimLaunch L n := ⟨harmed, hgrid.shape, hn, hpos⟩
  have hiff : RunsExactlyOnce L (L.start q) g ↔ g ≤ n ∧
      (L.C.indirect = true → L.R.taskOrder.Armed → PermutesBelow (slotEntry L n) g) := by
    rw [clc_runsExactlyOnce_iff hL hmode (decodesOwn_of_axis haxis) hgrid]
    exact and_congr_right fun hgn => Launch.task_permutesBelow_iff hL hmax hsz hgn
  refine ⟨hiff, fun hind horder hdirect => ?_⟩
  rw [hiff]
  refine and_congr_right fun hgn => ?_
  -- a direct table's words are the entries, and they are in range
  have hentry : ∀ i < g, orderTable L.C L.R L.mem i = slotEntry L n i := by
    intro i hi
    have hlt := hperm.lt (hi.trans_le hgn)
    rw [orderTable, hdirect, if_neg Bool.false_ne_true] at hlt ⊢
    rw [slotEntry, clampBelow, if_pos hlt]
  constructor
  · intro h i hi
    rw [hentry i hi]
    exact (h hind horder).lt hi
  · exact fun h _ _ => (hperm.restrict hgn h).congr hentry

theorem clcLaunch_exactlyOnce_iff_shrunk :
    RunsExactlyOnce (launchX true [1, 0, 2] 3 2) ((launchX true [1, 0, 2] 3 2).start 0) 2 :=
  (clcLaunch_exactlyOnce_iff (launchX true [1, 0, 2] 3 2) 3 2 0 rfl (by decide) rfl
    (launchX_linearGrid ..) (by decide) (by decide) (by decide) (by decide) (by decide)).1.2
    (by decide)

/-- A batch that grew from one tile to two on a step that left `num_tasks` = 1 installed: block 1
    exits at once, and the launch ends without having run task 1. -/
theorem clcLaunch_stale_loses_task :
    (launchX true [0] 1 2).R.ctrl.Armed ∧ LinearGrid (launchX true [0] 1 2) 2 ∧
      loadNumTasks (launchX true [0] 1 2).mem (launchX true [0] 1 2).R.ctrl.base = 1 ∧
      loadOrderSize (launchX true [0] 1 2).mem (launchX true [0] 1 2).R.ctrl.base = 1 ∧
      PermutesBelow (orderTable {} bakedSlots (launchX true [0] 1 2).mem) 1 ∧
      ∃ s, Reaches (Step (launchX true [0] 1 2)) ((launchX true [0] 1 2).start 0) s ∧
        Terminated (launchX true [0] 1 2) s ∧ s.tasks (launchX true [0] 1 2) 0 = {0} := by
  have hgrid := launchX_linearGrid true [0] 1 2
  have hL : ClaimLaunch (launchX true [0] 1 2) 1 := ⟨by decide, hgrid.shape, by decide, by decide⟩
  have hB : BoundedClaims (launchX true [0] 1 2) 1 0 := ⟨hL, by decide⟩
  obtain ⟨s, hs, hterm⟩ := exists_terminated hB (.start (by decide))
  refine ⟨by decide, hgrid, by decide, by decide, by decide, s, hs, hterm, ?_⟩
  rw [clc_tasks_of_terminated hL rfl (decodesOwn_of_axis rfl) hgrid hs hterm Nat.two_pos]
  decide

end SchedPass
