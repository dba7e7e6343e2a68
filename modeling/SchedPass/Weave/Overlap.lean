import SchedPass.Lib.Runs
import SchedPass.Weave.Remap
import SchedPass.Plane.View

set_option autoImplicit false

/-! # A launch in flight while the host writes

Every block of a launch loads its order entry and then the stamp, each at its own moment. Meanwhile
the host runs its writes in program order, an arena write piece by piece; a copy on the launch's
stream waits for the launch. The launch realises a bijection in every run in which no write changes
what the blocks still have to read (`QuietWrite`) and the first read finds a matching table. -/

namespace SchedPass

/-! ## The machine -/

/-- Where a block of the launch is: before its reads, between them, or past them. -/
inductive BlockPc
  | unread
  | entry (mapped : ℕ)
  | done (task : ℕ)
  deriving DecidableEq, Repr

/-- The memory, the host's remaining writes, the copies queued behind the launch, and the blocks. -/
structure Flight where
  mem : ByteMem
  prog : List MemOp
  queue : List MemOp := []
  block : ℕ → BlockPc := fun _ => .unread

namespace Flight

/-- Every block has its task. -/
def Finished (g : ℕ) (s : Flight) : Prop := ∀ p < g, ∃ t, s.block p = .done t

/-- The block-to-task map of a finished launch. -/
def task (s : Flight) (p : ℕ) : ℕ :=
  match s.block p with
  | .done t => t
  | _ => p

def setBlock (s : Flight) (p : ℕ) (b : BlockPc) : Flight :=
  { s with block := Function.update s.block p b }

@[simp] theorem setBlock_self (s : Flight) (p : ℕ) (b : BlockPc) : (s.setBlock p b).block p = b :=
  Function.update_self ..

theorem setBlock_setBlock (s : Flight) (p : ℕ) (b b' : BlockPc) :
    (s.setBlock p b).setBlock p b' = s.setBlock p b' := by
  simp only [setBlock, Function.update_idem]

theorem setBlock_ne (s : Flight) {p p' : ℕ} (b : BlockPc) (h : p' ≠ p) :
    (s.setBlock p b).block p' = s.block p' := Function.update_of_ne h ..

end Flight

variable (C : Config) (R : RtSlots) (g : ℕ)

/-- The first load of block `p`; a block the table does not cover loads nothing. -/
def firstRead (m : ByteMem) (p : ℕ) : BlockPc :=
  let (G, armed) := rtBuffer R.taskOrder
  if armed && decide (p < C.maxTasks) then .entry (orderEntry C m G p) else .done p

/-- One step of the host or of a block of the launch of `g` blocks. -/
inductive FlightStep : Flight → Flight → Prop
  /-- The next bytes `xs` of an arena write. -/
  | write {s : Flight} {a : ℕ} {xs ys : List UInt8} {rest : List MemOp}
      (h : s.prog = ⟨false, a, xs ++ ys⟩ :: rest) :
      FlightStep s { s with mem := s.mem.store a xs, prog := ⟨false, a + xs.length, ys⟩ :: rest }
  /-- An arena write is complete. -/
  | written {s : Flight} {a : ℕ} {rest : List MemOp} (h : s.prog = ⟨false, a, []⟩ :: rest) :
      FlightStep s { s with prog := rest }
  /-- A copy is enqueued behind the launch. -/
  | enqueue {s : Flight} {o : MemOp} {rest : List MemOp} (h : s.prog = o :: rest)
      (hq : o.queued = true) : FlightStep s { s with prog := rest, queue := s.queue ++ [o] }
  /-- The launch is over and the next copy runs. -/
  | copy {s : Flight} {o : MemOp} {rest : List MemOp} (hdone : s.Finished g)
      (h : s.queue = o :: rest) : FlightStep s { s with mem := o.apply s.mem, queue := rest }
  | readEntry {s : Flight} {p : ℕ} (hp : p < g) (h : s.block p = .unread) :
      FlightStep s (s.setBlock p (firstRead C R s.mem p))
  | readStamp {s : Flight} {p mapped : ℕ} (hp : p < g) (h : s.block p = .entry mapped) :
      FlightStep s (s.setBlock p (.done (selectTask mapped g p (orderSizeOk R s.mem g))))

/-! ## Quiet steps -/

/-- Some block has read the table. -/
def Flight.Reading (s : Flight) : Prop := ∃ p < g, p < C.maxTasks ∧ s.block p ≠ .unread

/-- Replacing the memory by `m'` changes neither the stamp's verdict on this launch, while some block
    has yet to read it, nor an honoured entry whose block has yet to read it. -/
structure QuietWrite (s : Flight) (m' : ByteMem) : Prop where
  verdict : (∃ p < g, p < C.maxTasks ∧ ∀ t, s.block p ≠ .done t) →
    orderSizeOk R m' g = orderSizeOk R s.mem g
  entries : orderSizeOk R s.mem g = true → ∀ p < g, p < C.maxTasks → s.block p = .unread →
    orderEntry C m' R.taskOrder.base p = orderEntry C s.mem R.taskOrder.base p

/-- The table in memory agrees with its stamp, as far as the launch can see. -/
def TableInPlace (m : ByteMem) : Prop :=
  TableMatches (orderTable C R m) C.maxTasks (loadOrderSize m R.ctrl.base) g

instance (m : ByteMem) : Decidable (TableInPlace C R g m) :=
  inferInstanceAs (Decidable (TableMatches _ _ _ _))

/-- A step that writes quietly once the table is being read, and whose first read finds the table in
    place. -/
structure QuietStep (s s' : Flight) : Prop where
  step : FlightStep C R g s s'
  write : s.Reading C g → QuietWrite C R g s s'.mem
  first : ¬ s.Reading C g → s'.Reading C g → TableInPlace C R g s.mem

variable {C R g}

theorem firstRead_of_lt (horder : R.taskOrder.Armed) {m : ByteMem} {p : ℕ} (hp : p < C.maxTasks) :
    firstRead C R m p = .entry (orderEntry C m R.taskOrder.base p) := by
  simp [firstRead, horder.buffer, hp]

theorem firstRead_of_le {m : ByteMem} {p : ℕ} (hp : C.maxTasks ≤ p) : firstRead C R m p = .done p := by
  simp [firstRead, not_lt.2 hp]

/-- In a memory that nobody writes, the two reads give the plain remap. -/
theorem emitRemap_of_lt (horder : R.taskOrder.Armed) {m : ByteMem} {p : ℕ} (hp : p < C.maxTasks) :
    emitRemap C R m g p
      = selectTask (orderEntry C m R.taskOrder.base p) g p (orderSizeOk R m g) := by
  simp [emitRemap, horder.buffer, hp]

theorem emitRemap_of_le {m : ByteMem} {p : ℕ} (hp : C.maxTasks ≤ p) : emitRemap C R m g p = p := by
  simp [emitRemap, not_lt.2 hp]

theorem QuietStep.run {s s' : Flight} (h : Reaches (QuietStep C R g) s s') :
    Reaches (FlightStep C R g) s s' := h.lift id fun _ _ hq => hq.step

theorem QuietWrite.refl (s : Flight) : QuietWrite C R g s s.mem := ⟨fun _ => rfl, fun _ _ _ _ _ => rfl⟩

/-- A block that reads while the host is silent runs the plain remap, the first one with the table in
    place. -/
theorem QuietStep.readTask (horder : R.taskOrder.Armed) {s : Flight} {p : ℕ} (hp : p < g)
    (hb : s.block p = .unread) (hplace : ¬ s.Reading C g → TableInPlace C R g s.mem) :
    Reaches (QuietStep C R g) s (s.setBlock p (.done (emitRemap C R s.mem g p))) := by
  have hentry : QuietStep C R g s (s.setBlock p (firstRead C R s.mem p)) :=
    ⟨.readEntry hp hb, fun _ => .refl s, fun hfirst _ => hplace hfirst⟩
  by_cases hmax : p < C.maxTasks
  · rw [firstRead_of_lt horder hmax] at hentry
    rw [emitRemap_of_lt horder hmax]
    have hstamp := FlightStep.readStamp (C := C) (R := R) hp (s.setBlock_self p
      (.entry (orderEntry C s.mem R.taskOrder.base p)))
    rw [Flight.setBlock_setBlock] at hstamp
    refine .tail (.single hentry) ⟨hstamp, fun _ => .refl _, fun hfirst => absurd ?_ hfirst⟩
    exact ⟨p, hp, hmax, by rw [Flight.setBlock_self]; exact nofun⟩
  · rw [firstRead_of_le (not_lt.1 hmax)] at hentry
    rw [emitRemap_of_le (not_lt.1 hmax)]
    exact .single hentry

/-! ## The invariant -/

/-- What block `p` has read, or will read in `m`, is as in the memory `m₀` of the first read. -/
inductive BlockOk (C : Config) (R : RtSlots) (g : ℕ) (m₀ m : ByteMem) (p : ℕ) : BlockPc → Prop
  | unread (hok : orderSizeOk R m g = orderSizeOk R m₀ g)
      (hent : orderSizeOk R m₀ g = true →
        orderEntry C m R.taskOrder.base p = orderEntry C m₀ R.taskOrder.base p) :
      BlockOk C R g m₀ m p .unread
  | entry {mapped : ℕ} (hok : orderSizeOk R m g = orderSizeOk R m₀ g)
      (hent : orderSizeOk R m₀ g = true → mapped = orderEntry C m₀ R.taskOrder.base p) :
      BlockOk C R g m₀ m p (.entry mapped)
  | done : BlockOk C R g m₀ m p (.done (emitRemap C R m₀ g p))

/-- The launch's invariant: the channel word stays set, blocks beyond the table keep their index, and
    once the table is being read all blocks read as if from one memory with the table in place. -/
structure FlightOk (C : Config) (R : RtSlots) (g : ℕ) (s : Flight) : Prop where
  channel : C.orderIndirect = true → s.mem.load64 R.taskOrder.base ≠ 0 ∧
    ∀ o ∈ s.prog ++ s.queue, SchedPlane.SparesWord R.taskOrder.base o
  tail : ∀ p < g, C.maxTasks ≤ p → s.block p = .unread ∨ s.block p = .done p
  frozen : s.Reading C g → ∃ m₀, ChannelSet C R m₀ ∧ TableInPlace C R g m₀ ∧
    ∀ p < g, p < C.maxTasks → BlockOk C R g m₀ s.mem p (s.block p)

theorem FlightOk.start {m : ByteMem} {w : List MemOp} (hchan : C.orderIndirect = true →
      m.load64 R.taskOrder.base ≠ 0 ∧ ∀ o ∈ w, SchedPlane.SparesWord R.taskOrder.base o) :
    FlightOk C R g { mem := m, prog := w } where
  channel := by simpa using hchan
  tail := fun _ _ _ => Or.inl rfl
  frozen := fun ⟨_, _, _, hne⟩ => absurd rfl hne

/-- A quiet write keeps every block on the frozen table. -/
theorem BlockOk.write {s : Flight} {m₀ m' : ByteMem} {p : ℕ} (hp : p < g) (hmax : p < C.maxTasks)
    (hq : QuietWrite C R g s m') (h : BlockOk C R g m₀ s.mem p (s.block p)) :
    BlockOk C R g m₀ m' p (s.block p) := by
  generalize hb : s.block p = b at h
  cases h with
  | unread hok hent =>
      have hverdict := hq.verdict ⟨p, hp, hmax, fun t => by simp [hb]⟩
      refine .unread (hverdict.trans hok) fun h₀ => ?_
      rw [hq.entries (hok.trans h₀) p hp hmax hb, hent h₀]
  | entry hok hent =>
      have hverdict := hq.verdict ⟨p, hp, hmax, fun t => by simp [hb]⟩
      exact .entry (hverdict.trans hok) hent
  | done => exact .done

/-- The second read decides as the plain remap does on the frozen table. -/
theorem BlockOk.select (horder : R.taskOrder.Armed) {m₀ m : ByteMem} {p mapped : ℕ}
    (hmax : p < C.maxTasks) (h : BlockOk C R g m₀ m p (.entry mapped)) :
    selectTask mapped g p (orderSizeOk R m g) = emitRemap C R m₀ g p := by
  cases h with
  | entry hok hent =>
      rw [emitRemap_of_lt horder hmax, hok]
      cases h₀ : orderSizeOk R m₀ g with
      | true => rw [hent h₀]
      | false => simp [selectTask]

/-- A step of the host alone: the blocks stay, the channel word is spared. -/
theorem FlightOk.host {s : Flight} (h : FlightOk C R g s) {m' : ByteMem} {prog queue : List MemOp}
    (hchan : C.orderIndirect = true → m'.load64 R.taskOrder.base = s.mem.load64 R.taskOrder.base ∧
      ∀ o ∈ prog ++ queue, SchedPlane.SparesWord R.taskOrder.base o)
    (hq : s.Reading C g → QuietWrite C R g s m') :
    FlightOk C R g { s with mem := m', prog := prog, queue := queue } where
  channel := by
    intro hind
    obtain ⟨hword, hspares⟩ := hchan hind
    have hset := (h.channel hind).1
    rw [← hword] at hset
    exact ⟨hset, hspares⟩
  tail := h.tail
  frozen := by
    intro hread
    obtain ⟨m₀, hset, hplace, hblocks⟩ := h.frozen hread
    exact ⟨m₀, hset, hplace, fun p hp hmax =>
      BlockOk.write (s := s) hp hmax (hq hread) (hblocks p hp hmax)⟩

/-- Block `p` leaves its last read behind; the other blocks stay. -/
theorem FlightOk.block {s : Flight} {p : ℕ} {b : BlockPc} (h : FlightOk C R g s)
    (htail : C.maxTasks ≤ p → b = .done p)
    (hfrozen : (s.setBlock p b).Reading C g → ∃ m₀, ChannelSet C R m₀ ∧ TableInPlace C R g m₀ ∧
      (∀ p' < g, p' < C.maxTasks → BlockOk C R g m₀ s.mem p' (s.block p')) ∧
      (p < C.maxTasks → BlockOk C R g m₀ s.mem p b)) : FlightOk C R g (s.setBlock p b) where
  channel := h.channel
  tail := by
    intro p' hp' hmax
    by_cases hpp : p' = p
    · subst hpp
      rw [Flight.setBlock_self]
      exact Or.inr (htail hmax)
    · rw [Flight.setBlock_ne s b hpp]
      exact h.tail p' hp' hmax
  frozen := by
    intro hreads
    obtain ⟨m₀, hset, hplace, hblocks, hnew⟩ := hfrozen hreads
    refine ⟨m₀, hset, hplace, fun p' hp' hmax => ?_⟩
    by_cases hpp : p' = p
    · subst hpp
      rw [Flight.setBlock_self]
      exact hnew hmax
    · rw [Flight.setBlock_ne s b hpp]
      exact hblocks p' hp' hmax

/-- A block's first load: the first of the launch freezes the table. -/
theorem FlightOk.readEntry (horder : R.taskOrder.Armed) {s : Flight} (h : FlightOk C R g s) {p : ℕ}
    (hp : p < g) (hb : s.block p = .unread)
    (hfirst : ¬ s.Reading C g → (s.setBlock p (firstRead C R s.mem p)).Reading C g →
      TableInPlace C R g s.mem) : FlightOk C R g (s.setBlock p (firstRead C R s.mem p)) := by
  by_cases hmax : p < C.maxTasks
  · refine h.block (fun hle => absurd hmax (not_lt.2 hle)) fun hreads => ?_
    rw [firstRead_of_lt horder hmax]
    by_cases hread : s.Reading C g
    · obtain ⟨m₀, hset, hplace, hblocks⟩ := h.frozen hread
      refine ⟨m₀, hset, hplace, hblocks, fun _ => ?_⟩
      have hp₀ := hblocks p hp hmax
      rw [hb] at hp₀
      cases hp₀ with
      | unread hok hent => exact .entry hok hent
    · refine ⟨s.mem, fun hind => (h.channel hind).1, hfirst hread hreads, ?_, ?_⟩
      · intro p' hp' hmax'
        have hunread : s.block p' = .unread := by
          by_contra hne
          exact hread ⟨p', hp', hmax', hne⟩
        rw [hunread]
        exact .unread rfl fun _ => rfl
      · exact fun _ => .entry rfl fun _ => rfl
  · -- a block that the table does not cover loads nothing
    have hle : C.maxTasks ≤ p := not_lt.1 hmax
    rw [firstRead_of_le hle]
    refine h.block (fun _ => rfl) ?_
    rintro ⟨p', hp', hmax', hne⟩
    have hpp : p' ≠ p := by omega
    rw [Flight.setBlock_ne s _ hpp] at hne
    obtain ⟨m₀, hset, hplace, hblocks⟩ := h.frozen ⟨p', hp', hmax', hne⟩
    exact ⟨m₀, hset, hplace, hblocks, fun hlt => absurd hlt hmax⟩

theorem FlightOk.readStamp (horder : R.taskOrder.Armed) {s : Flight} (h : FlightOk C R g s)
    {p mapped : ℕ} (hp : p < g) (hb : s.block p = .entry mapped) :
    FlightOk C R g (s.setBlock p (.done (selectTask mapped g p (orderSizeOk R s.mem g)))) := by
  have hmax : p < C.maxTasks := by
    by_contra hle
    rcases h.tail p hp (not_lt.1 hle) with hp' | hp' <;> simp [hb] at hp'
  have hread : s.Reading C g := ⟨p, hp, hmax, by simp [hb]⟩
  refine h.block (fun hle => absurd hmax (not_lt.2 hle)) fun _ => ?_
  obtain ⟨m₀, hset, hplace, hblocks⟩ := h.frozen hread
  refine ⟨m₀, hset, hplace, hblocks, fun _ => ?_⟩
  have hp₀ := hblocks p hp hmax
  rw [hb] at hp₀
  rw [hp₀.select horder hmax]
  exact .done

theorem FlightOk.step (horder : R.taskOrder.Armed) {s s' : Flight} (h : FlightOk C R g s)
    (hstep : QuietStep C R g s s') : FlightOk C R g s' := by
  obtain ⟨hstep, hwrite, hfirst⟩ := hstep
  cases hstep with
  | @write a xs ys rest hprog =>
      refine h.host (fun hind => ?_) hwrite
      have hspares := (h.channel hind).2
      rw [hprog] at hspares
      have hhead : SchedPlane.SparesWord R.taskOrder.base ⟨false, a, xs ++ ys⟩ :=
        hspares _ List.mem_cons_self
      simp only [SchedPlane.SparesWord, List.length_append] at hhead
      refine ⟨ByteMem.load_store_of_disjoint _ _ _ (by omega), fun o ho => ?_⟩
      rcases List.mem_cons.1 ho with rfl | ho
      · simp only [SchedPlane.SparesWord]
        omega
      · exact hspares o (List.mem_cons_of_mem _ ho)
  | written hprog =>
      refine h.host (fun hind => ⟨rfl, fun o ho => ?_⟩) hwrite
      have hspares := (h.channel hind).2
      rw [hprog] at hspares
      exact hspares o (List.mem_cons_of_mem _ ho)
  | @enqueue o rest hprog _ =>
      refine h.host (fun hind => ⟨rfl, fun o' ho' => (h.channel hind).2 o' ?_⟩) hwrite
      rw [hprog]
      simp only [List.mem_append, List.mem_cons, List.not_mem_nil, or_false] at ho' ⊢
      tauto
  | @copy o rest _ hqueue =>
      refine h.host (fun hind => ?_) hwrite
      have hspares := (h.channel hind).2
      rw [hqueue] at hspares
      refine ⟨ByteMem.load_store_of_disjoint _ _ _ (hspares o (by simp)).symm, fun o' ho' => ?_⟩
      refine hspares o' ?_
      simp only [List.mem_append, List.mem_cons] at ho' ⊢
      tauto
  | readEntry hp hb => exact h.readEntry horder hp hb hfirst
  | readStamp hp hb => exact h.readStamp horder hp hb

/-- A finished launch of a quiet run realises a bijection. -/
theorem FlightOk.permutesBelow (horder : R.taskOrder.Armed) (hctrl : R.ctrl.Armed) {s : Flight}
    (h : FlightOk C R g s) (hdone : s.Finished g) : PermutesBelow s.task g := by
  by_cases hread : s.Reading C g
  · obtain ⟨m₀, hset, hplace, hblocks⟩ := h.frozen hread
    refine (emitRemap_permutesBelow horder hctrl hset hplace).congr fun p hp => ?_
    obtain ⟨t, ht⟩ := hdone p hp
    rw [Flight.task, ht]
    by_cases hmax : p < C.maxTasks
    · have hp₀ := hblocks p hp hmax
      rw [ht] at hp₀
      cases hp₀ with
      | done => rfl
    · rw [emitRemap_of_le (not_lt.1 hmax)]
      rcases h.tail p hp (not_lt.1 hmax) with hp' | hp' <;> rw [ht] at hp' <;> cases hp'
      rfl
  · -- the table covers no block of the launch
    refine PermutesBelow.of_eq_self fun p hp => ?_
    obtain ⟨t, ht⟩ := hdone p hp
    have hmax : C.maxTasks ≤ p := by
      by_contra hlt
      exact hread ⟨p, hp, not_le.1 hlt, by simp [ht]⟩
    rcases h.tail p hp hmax with hp' | hp' <;> rw [ht] at hp' <;> cases hp'
    rw [Flight.task, ht]

/-- **Every quiet run of a launch realises a bijection of its tiles.** -/
theorem quietRun_permutesBelow (horder : R.taskOrder.Armed) (hctrl : R.ctrl.Armed) {m : ByteMem}
    {w : List MemOp} (hchan : C.orderIndirect = true →
      m.load64 R.taskOrder.base ≠ 0 ∧ ∀ o ∈ w, SchedPlane.SparesWord R.taskOrder.base o)
    {s : Flight} (hrun : Reaches (QuietStep C R g) { mem := m, prog := w } s)
    (hdone : s.Finished g) : PermutesBelow s.task g := by
  have hs : FlightOk C R g s :=
    hrun.invariant (fun _ _ hs hstep => hs.step horder hstep) (.start hchan)
  exact hs.permutesBelow horder hctrl hdone

end SchedPass
