import Mathlib.Data.List.GetD
import SchedPass.Weave.Indirect
import SchedPass.WorkQueue.Launches

set_option autoImplicit false

/-! # What the persistent workers do for a task (`WorkQueueTransform::cloneBody`)

The transform moves the kernel into a body with the task as an extra parameter, which stands for every
read of the slot axis in the clone. The grid the body runs in is the workers', not the tasks': its reads
of `nctaid` give the number of workers, and the device functions it calls see the worker's index. So
the body does for a task what the block of that task does in the original launch if and only if the
kernel does not notice (`workers_iff`). -/

namespace SchedPass

/-! ## The transform -/

/-- `cloneBody`: the kernel's code with the task as last parameter. -/
def Code.cloneBody (C : Config) (P : Code) : Code :=
  { P.replaceReads (axisOf C.slotAxis) with arity := P.arity + 1 }

/-- `WorkQueueTransform::run`, as far as the body goes: nothing without the buffers of the claim. -/
def workQueueTransform (useCLC : Bool) (C : Config) (R : RtSlots) (P : Code) : Option Code :=
  if !rtAvailable R.ctrl || (!useCLC && !rtAvailable R.queue) then none else some (P.cloneBody C)

section

variable {V E : Type} (L : Launch) (D : String → Option Code) (J : Meaning V E) (args : List V)

/-- One call of the body by the worker `b`. The clone is internal and called by the driver alone, so
    the device functions are the ones of the original module. -/
def bodyRun (Body : Code) (b : Dim3) (raw n : ℕ) : Option V × List E :=
  runFrame D J ⟨b, L.nctaid⟩ n
    { code := Body, ctaid := b, args := fun k => (args ++ [J.ofNat (L.task raw)]).getD k J.undef }

/-- Block `b` of the original kernel in a grid of the shape. -/
def stockRun (P : Code) (grid b : Dim3) (n : ℕ) : Option V × List E :=
  runFrame D J ⟨b, grid⟩ n ⟨P, b, fun k => args.getD k J.undef⟩

/-- The block of a task, on the slot axis of the launch. -/
def Launch.blockOf (t : ℕ) : Dim3 := Dim3.along (axisOf L.C.slotAxis) t

/-- The launch's grid with `n` blocks on the slot axis. -/
def Launch.gridOf (n : ℕ) : Dim3 := L.nctaid.set (axisOf L.C.slotAxis) n

end

/-! ## One call of the body -/

theorem Dim3.get_along_ne {a c : Axis} (i : ℕ) (h : c ≠ a) : (Dim3.along a i).get c = 0 := by
  cases a <;> cases c <;> first | rfl | exact absurd rfl h

section

variable {V E : Type} {L : Launch} {D : String → Option Code} {J : Meaning V E} {args : List V}
  {P : Code}

/-- **The body of worker `i`**: the kernel with its own reads at the task, everything else at the
    worker. -/
theorem bodyRun_eq (hP : P.WellFormed) (hlen : args.length = P.arity) (i raw n : ℕ) :
    bodyRun L D J args (P.cloneBody L.C) (L.blockOf i) raw n =
      runFrame D J ⟨L.blockOf i, L.nctaid⟩ n
        ⟨P, L.blockOf (L.task raw), fun k => args.getD k J.undef⟩ := by
  have hargs : (fun k => (args ++ [J.ofNat (L.task raw)]).getD k J.undef)
      = Function.update (fun k => args.getD k J.undef) P.arity (J.ofNat (L.task raw)) := by
    funext k
    rcases Nat.lt_trichotomy k P.arity with hlt | rfl | hgt
    · rw [Function.update_of_ne hlt.ne, List.getD_append _ _ _ _ (hlen ▸ hlt)]
    · rw [Function.update_self, ← hlen, List.getD_append_right _ _ _ _ le_rfl, Nat.sub_self]
      rfl
    · rw [Function.update_of_ne hgt.ne', List.getD_append_right _ _ _ _ (hlen ▸ hgt.le),
        List.getD_eq_default args _ (hlen ▸ hgt.le), List.getD_eq_default [_]]
      rw [List.length_singleton]
      omega
  have hframe := @runFrame_replaceReads V E D J ⟨L.blockOf i, L.nctaid⟩ P (axisOf L.C.slotAxis)
    (L.blockOf (L.task raw)) (L.blockOf i) (fun k => args.getD k J.undef) (J.ofNat (L.task raw))
    (P.arity + 1) hP (fun c hc => by rw [Launch.blockOf, Launch.blockOf, Dim3.get_along_ne _ hc,
      Dim3.get_along_ne _ hc]) (by rw [Launch.blockOf, Dim3.get_along]) n
  rw [bodyRun, hargs]
  exact hframe

end

/-! ## Which tasks a worker serves -/

section

variable {L : Launch} {n W : ℕ}

/-- What the CTAs have claimed are tickets. -/
def ClaimedFrom (W : ℕ) (s : Grid) : Prop :=
  ∀ b c, s.cta b = some c → ∀ v ∈ c.claims, W ≤ v

theorem ClaimedFrom.setCta {s : Grid} (h : ClaimedFrom W s) {b : Dim3} {c : Cta}
    (hc : ∀ v ∈ c.claims, W ≤ v) (p : Finset Dim3) (queue issued : ℕ) :
    ClaimedFrom W ({ s with pending := p, queue := queue, issued := issued }.setCta b c) := by
  intro b' d hd
  by_cases hb : b' = b
  · subst hb
    rw [Grid.setCta_self] at hd
    cases hd
    exact hc
  · rw [Grid.setCta_ne _ c hb] at hd
    exact h b' d hd

theorem ClaimedFrom.step (hB : BoundedClaims L n W) (hmode : L.useCLC = false) {s s' : Grid}
    (hok : ClaimsOk L n W s) (h : ClaimedFrom W s) (hstep : Step L s s') : ClaimedFrom W s' := by
  cases hstep with
  | launch hb => exact h.setCta (by simp) _ _ _
  | @cta b c c' hc hcta => exact h.setCta (hcta.claims_eq ▸ h b c hc) _ _ _
  | @ticket b c _ hc hpc =>
      refine h.setCta ?_ _ _ _
      have hv := (hok.tickets hmode).ticketClaim_eq hok.grid (hB.capacity hmode) hc hpc
      intro v hmem
      rw [Cta.store_claims, List.mem_append, List.mem_singleton, hv] at hmem
      rcases hmem with hmem | rfl
      · exact h b c hc v hmem
      · exact Nat.le_add_right _ _
  | cancel hclc => exact absurd (hmode.symm.trans hclc) (by decide)
  | cancelFail hclc => exact absurd (hmode.symm.trans hclc) (by decide)

/-- A worker runs the body for its own index and for tickets. -/
theorem log_mem (hB : BoundedClaims L n W) (hmode : L.useCLC = false) (hW : W < 2 ^ 32) {s : Grid}
    (h : Reaches (Step L) (L.start W) s) {b : Dim3} {t raw : ℕ} (ht : t < L.threads)
    (hraw : raw ∈ s.log b t) : b ∈ L.blocks ∧ raw < n ∧ (raw = L.first b ∨ W ≤ raw) := by
  have hinv : ClaimsOk L n W s ∧ ClaimedFrom W s := by
    refine h.invariant (I := fun s => ClaimsOk L n W s ∧ ClaimedFrom W s) (fun s s' hI hs => ?_)
      ⟨.start fun _ => hW, by simp [ClaimedFrom, Launch.start]⟩
    exact ⟨hI.1.step hB hs, hI.2.step hB hmode hI.1 hs⟩
  unfold Grid.log at hraw
  cases hc : s.cta b with
  | none => simp [hc] at hraw
  | some c =>
      simp only [hc] at hraw
      have hcta := hinv.1.grid.ctas b c hc
      refine ⟨(hinv.1.grid.launched b c hc).1, hcta.log_lt ht raw hraw, ?_⟩
      have hmem : raw ∈ L.first b :: c.claims := (hcta.log_prefix ht).subset hraw
      exact (List.mem_cons.1 hmem).imp_right (hinv.2 b c hc raw)

/-- A worker that is alone takes the first `k` tickets. -/
theorem exists_claims (hB : BoundedClaims L n W) (hmode : L.useCLC = false) (hW : W < 2 ^ 32)
    {b : Dim3} (hb : b ∈ L.blocks) (hfirst : L.first b < n) (k : ℕ) (hk : k = 0 ∨ W + k ≤ n) :
    ∃ s c, Reaches (Step L) (L.start W) s ∧ s.cta b = some c ∧ (c.thread 0).pc = .claim ∧
      s.issued = k ∧ ∀ j < k, W + j ∈ c.claims := by
  induction k with
  | zero =>
      have hcur : Cta.current L b {} < n := by rwa [Cta.current_of_fresh rfl]
      obtain ⟨c, hrun, hpc, -⟩ := CtaOk.fresh.exists_claiming hB.launch hcur
      refine ⟨_, c, (Reaches.setCta hrun _).head (.launch hb), Grid.setCta_self .., hpc, rfl, ?_⟩
      exact fun j hj => absurd hj (Nat.not_lt_zero j)
  | succ k ih =>
      obtain ⟨s, c, hs, hc, hpc, hissued, hclaims⟩ := ih (by omega)
      have hok := ClaimsOk.reaches hB (fun _ => hW) hs
      have hv := (hok.tickets hmode).ticketClaim_eq hok.grid (hB.capacity hmode) hc hpc
      have hstore := (hok.grid.ctas b c hc).store hpc (ticketClaim s.queue).1
      obtain ⟨c', hrun, hpc', hclaims'⟩ := hstore.exists_claiming hB.launch (by
        rw [Cta.store_current, hv, hissued]
        omega)
      refine ⟨_, c', (hs.tail (.ticket hmode hc hpc)).trans (Reaches.setCta hrun _),
        Grid.setCta_self .., hpc', by rw [Grid.setCta_issued, hissued], ?_⟩
      intro j hj
      rw [hclaims', Cta.store_claims, List.mem_append, List.mem_singleton, hv, hissued]
      rcases Nat.lt_succ_iff_lt_or_eq.1 hj with hj | rfl
      · exact Or.inl (hclaims j hj)
      · exact Or.inr rfl

/-- Every worker can be the one that runs the body for a ticket. -/
theorem exists_served (hB : BoundedClaims L n W) (hmode : L.useCLC = false) (hW : W < 2 ^ 32)
    {b : Dim3} (hb : b ∈ L.blocks) (hfirst : L.first b < n) {t : ℕ} (ht : t < n)
    (hserve : t = L.first b ∨ W ≤ t) :
    ∃ s, Reaches (Step L) (L.start W) s ∧ ∀ u < L.threads, t ∈ s.log b u := by
  have hclaims : ∃ s c, Reaches (Step L) (L.start W) s ∧ s.cta b = some c ∧
      (c.thread 0).pc = .claim ∧ t ∈ c.raws L b := by
    rcases hserve with rfl | hle
    · obtain ⟨s, c, hs, hc, hpc, -, -⟩ := exists_claims hB hmode hW hb hfirst 0 (Or.inl rfl)
      exact ⟨s, c, hs, hc, hpc, List.mem_cons_self ..⟩
    · obtain ⟨s, c, hs, hc, hpc, -, hclaims⟩ :=
        exists_claims hB hmode hW hb hfirst (t - W + 1) (Or.inr (by omega))
      have hmem := hclaims (t - W) (by omega)
      rw [Nat.add_sub_cancel' hle] at hmem
      exact ⟨s, c, hs, hc, hpc, List.mem_cons_of_mem _ hmem⟩
  obtain ⟨s, c, hs, hc, hpc, hmem⟩ := hclaims
  refine ⟨s, hs, fun u hu => ?_⟩
  have hall := ((ClaimsOk.reaches hB (fun _ => hW) hs).grid.ctas b c hc).claiming hpc
  simp only [Grid.log, hc, hall.2 u hu]
  exact hmem

end

/-! ## Which kernels the workers execute faithfully -/

section

variable {V E : Type}

theorem Body_eq {useCLC : Bool} {C : Config} {R : RtSlots} {P Body : Code}
    (h : workQueueTransform useCLC C R P = some Body) : P.cloneBody C = Body := by
  unfold workQueueTransform at h
  split at h
  · cases h
  · exact Option.some.inj h

/-- **When persistent workers preserve a kernel.** In every ticket launch of `W` workers for `n` tasks
    in identity order, every call of the body makes the accesses of the original block of its task in
    a grid of `n` blocks, and a finished launch has made the body calls of exactly these blocks, if and
    only if no block notices that the extent of the slot axis is `W`, and that its device functions
    see the index of a worker that can serve it. -/
theorem workers_iff (L : Launch) (n W : ℕ) (hmode : L.useCLC = false)
    (harmed : ClaimArmed L.useCLC L.R) (hgrid : LinearGrid L W) (hW : 1 ≤ W) (hWn : W ≤ n)
    (hn : loadNumTasks L.mem L.R.ctrl.base = n) (hcap : n < 2 ^ 31)
    (hid : ∀ raw < n, L.task raw = raw) (P Body : Code) (hP : P.WellFormed)
    (hBody : workQueueTransform L.useCLC L.C L.R P = some Body) (D : String → Option Code)
    (J : Fin L.threads → Meaning V E) (args : List V) (hlen : args.length = P.arity) :
    (∀ s, Reaches (Step L) (L.start W) s →
        (∀ (u : Fin L.threads) (b : Dim3), ∀ raw ∈ s.log b u, ∀ k,
          bodyRun L D (J u) args Body b raw k
            = stockRun D (J u) args P (L.gridOf n) (L.blockOf (L.task raw)) k) ∧
          (Terminated L s → ∀ u : Fin L.threads,
            ∑ b ∈ L.blocks, (((s.log b u).map (bodyRun L D (J u) args Body b) : List _) : Multiset _)
              = (Multiset.range n).map fun t =>
                  stockRun D (J u) args P (L.gridOf n) (L.blockOf t))) ↔
      ∀ i < W, ∀ t < n, t = i ∨ W ≤ t →
        Unaware D J P args (L.blockOf t) ⟨L.blockOf t, L.gridOf n⟩ ⟨L.blockOf i, L.nctaid⟩ := by
  obtain rfl := Body_eq hBody
  have hL : ClaimLaunch L n := ⟨harmed, hgrid.shape, hn, by omega⟩
  have hB : BoundedClaims L n W := ⟨hL, fun _ => by rw [hgrid.card_loopBlocks]; omega⟩
  have hW32 : W < 2 ^ 32 := by omega
  have hfirst : ∀ i, L.first (L.blockOf i) = i := fun i => Launch.first_along i
  constructor
  · intro h i hi t ht hserve u k
    have hb : L.blockOf i ∈ L.blocks := hgrid.mem_blocks.2 ⟨i, hi, rfl⟩
    obtain ⟨s, hs, hlog⟩ := exists_served hB hmode hW32 hb (by rw [hfirst]; omega) ht
      (by rwa [hfirst])
    have hrun := (h s hs).1 u (L.blockOf i) t (hlog u u.isLt) k
    rw [bodyRun_eq hP hlen, hid t ht] at hrun
    exact hrun.symm
  · intro h s hs
    have hcall : ∀ (u : Fin L.threads) (b : Dim3), ∀ raw ∈ s.log b u, ∀ k,
        bodyRun L D (J u) args (P.cloneBody L.C) b raw k
          = stockRun D (J u) args P (L.gridOf n) (L.blockOf (L.task raw)) k := by
      intro u b raw hraw k
      obtain ⟨hb, hlt, hserve⟩ := log_mem hB hmode hW32 hs u.isLt hraw
      obtain ⟨i, hi, rfl⟩ := hgrid.mem_blocks.1 hb
      rw [Launch.first_along] at hserve
      have hbody := bodyRun_eq (L := L) (D := D) (J := J u) hP hlen i raw k
      rw [hid raw hlt] at hbody ⊢
      exact hbody.trans (h i hi raw hlt hserve u k).symm
    refine ⟨hcall, fun hterm u => ?_⟩
    have htasks := ticket_tasks_of_terminated hL hmode hgrid hW (by omega) hs hterm u.isLt
    have hrange : (Multiset.range n).map L.task = Multiset.range n := by
      rw [Multiset.map_congr rfl fun raw hraw => hid raw (Multiset.mem_range.1 hraw)]
      exact Multiset.map_id _
    rw [← hrange, ← htasks, Grid.tasks, ← Multiset.coe_mapAddMonoidHom, map_sum]
    refine Finset.sum_congr rfl fun b _ => ?_
    rw [Multiset.coe_mapAddMonoidHom, Multiset.map_coe, List.map_map]
    exact congrArg _ (List.map_congr_left fun raw hraw => funext (hcall u b raw hraw))

end

/-- A ticket launch of the example kernels: `W` workers for `n` tasks in the order of the table. -/
theorem launchX_bounded (table : List ℕ) (n W : ℕ) (hpos : 0 < n) (hcap : max n W + W ≤ 2 ^ 32)
    (hn : loadNumTasks (planeImage 64 1024 table n n) 1024 = n) :
    BoundedClaims (launchX false table n W) n W := by
  have hgrid := launchX_linearGrid false table n W
  have harmed : ClaimArmed false bakedSlots := by decide
  refine ⟨⟨harmed, hgrid.shape, hn, hpos⟩, fun _ => ?_⟩
  rw [hgrid.card_loopBlocks]
  omega

/-- Two workers for three tasks of a kernel that reads neither the extent nor, in its device function,
    the index. -/
theorem workers_iff_constTile :
    ∃ s, Reaches (Step (launchX false [0, 1, 2] 3 2)) ((launchX false [0, 1, 2] 3 2).start 2) s ∧
      Terminated (launchX false [0, 1, 2] 3 2) s ∧ ∀ u : Fin 2,
        ∑ b ∈ (launchX false [0, 1, 2] 3 2).blocks,
          (((s.log b u).map (bodyRun (launchX false [0, 1, 2] 3 2) (tileModule constTile).device
            (storeMeaning ()) [] (storeTile.cloneBody {}) b) : List _) : Multiset _)
          = (Multiset.range 3).map fun t => stockRun (tileModule constTile).device (storeMeaning ()) []
            storeTile ⟨3, 1, 1⟩ ⟨t, 0, 0⟩ := by
  have hiff := workers_iff (launchX false [0, 1, 2] 3 2) 3 2 rfl (by decide)
    (launchX_linearGrid ..) (by decide) (by decide) (by decide) (by decide) (by decide) storeTile _
    storeTile_wellFormed rfl (tileModule constTile).device (fun _ => storeMeaning ()) [] rfl
  have hsame : ∀ t nctaid nctaid', storeTile.SeesSame t t nctaid nctaid' := by
    intro t nctaid nctaid' b I hI a
    refine ⟨fun _ => rfl, fun hr => ?_⟩
    by_cases hb : b = 0
    · revert I
      rw [hb]
      simp [storeTile, straightLine, ctaidX, Instr.sreg, sregOf]
    · simp [storeTile, straightLine, hb] at hI
  have hruns := hiff.2 fun i _ t _ _ => by
    refine unaware_of_seesSame ?_ ?_ ?_ []
    · exact fun _ _ _ _ _ => rfl
    · exact fun g Q hQ => constTile_seesSame _ _ _ _ hQ
    · exact hsame _ _ _
  obtain ⟨s, hs, hterm⟩ := exists_terminated
    (launchX_bounded [0, 1, 2] 3 2 (by decide) (by decide) (by decide))
    (.start fun _ => by decide)
  exact ⟨s, hs, hterm, (hruns s hs).2 hterm⟩

def nctaidX (id : ℕ) : Instr :=
  { id := id, op := .call (some .other) (some "llvm.nvvm.read.ptx.sreg.nctaid.x"), ty := .int 32 }

/-- `out[blockIdx.x][gridDim.x] = …`. -/
def storeExtent : Code where
  name := "k"
  func := straightLine
    ([ctaidX 1, nctaidX 2, { id := 3, op := .other, ty := .other, args := [.inst 1, .inst 2] }]
      ++ [{ id := 4, op := .terminator, ty := .other }]) 5
  arity := 0

/-- **A body that reads the extent of its grid gets the number of workers**: one worker for two tasks
    runs the body for task 0 with extent 1, where the original block sees 2. -/
theorem extent_read_sees_workers :
    workQueueTransform false {} bakedSlots storeExtent = some (storeExtent.cloneBody {}) ∧
      ∃ s, Reaches (Step (launchX false [0, 1] 2 1)) ((launchX false [0, 1] 2 1).start 1) s ∧
        0 ∈ s.log ⟨0, 0, 0⟩ 0 ∧
        bodyRun (launchX false [0, 1] 2 1) (fun _ => none) (storeMeaning ()) []
          (storeExtent.cloneBody {}) ⟨0, 0, 0⟩ 0 1 = (some 0, [[0, 1]]) ∧
        stockRun (fun _ => none) (storeMeaning ()) [] storeExtent ⟨2, 1, 1⟩ ⟨0, 0, 0⟩ 1
          = (some 0, [[0, 2]]) := by
  refine ⟨rfl, ?_⟩
  obtain ⟨s, hs, hlog⟩ := exists_served (b := ⟨0, 0, 0⟩) (t := 0)
    (launchX_bounded [0, 1] 2 1 (by decide) (by decide) (by decide)) rfl
    (by decide) (by decide) (by decide) (by decide) (Or.inl rfl)
  exact ⟨s, hs, hlog 0 (by decide), by decide +kernel, by decide +kernel⟩

end SchedPass
