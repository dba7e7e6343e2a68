import SchedPass.Plugin.Probe

set_option autoImplicit false

/-! # Accounting for a probe's rows

`RowsOk` relates the rows to what the CTAs of one clock have spent: from the clear on, a CTA adds to
the rows exactly if it carries that clock. The device's steps keep it as they are; the host keeps it as
long as the gate is turned off after the probe's entries (`RowsOk.turnOff`) and the rows are cleared
when nothing else can add to them (`RowsOk.hostClear`, `RowsOk.deviceClear`). `StreamOk` keeps the
clocks on the stream in order. -/

namespace SchedPass

/-! ## Accounting -/

/-- With the gate `on`, a CTA adds to the rows exactly if it is one of the probe's. -/
def Bracket.Counts (on mine : Bool) : Bracket → Prop
  | .before => on = mine
  | .inside off => off = !mine
  | .returned => True

/-- The entry does to the rows what the log of clock `c` records. -/
def StreamItem.Counts (p : SchedPlane) (on : Bool) (c : ℕ) (it : StreamItem) : Prop :=
  match it.work with
  | .launch ctas => ∀ a ∈ ctas, a.pc.Counts on (it.tag == c)
  | .write o => p.SparesTimer o
  | .event => True

/-- The clear of the rows is on the stream, and what follows it counts for `c`. -/
inductive Clearing (p : SchedPlane) (on : Bool) (c : ℕ) : List StreamItem → Prop
  | clear {k : ℕ} {l : List StreamItem} (hk : k < c) (hcount : ∀ it ∈ l, it.Counts p on c) :
      Clearing p on c (⟨k, .write p.rowsClear⟩ :: l)
  | older {it : StreamItem} {l : List StreamItem} (htag : it.tag < c) (h : Clearing p on c l) :
      Clearing p on c (it :: l)

theorem Clearing.old {p : SchedPlane} {on : Bool} {c : ℕ} {l : List StreamItem}
    (h : Clearing p on c l) : ∃ it ∈ l, it.tag < c := by
  cases h with
  | clear hk hcount => exact ⟨_, List.mem_cons_self, hk⟩
  | older htag h => exact ⟨_, List.mem_cons_self, htag⟩

/-- The rows hold what was spent since the clear, or the clear is still to come and nothing was. -/
inductive RowsOk (p : SchedPlane) (v : TimerView) (c : ℕ) (spent : ℕ → ℕ) (l : List StreamItem) : Prop
  | cleared (hcount : ∀ it ∈ l, it.Counts p v.on c) (hrows : ∀ t < p.N, v.row t = spent t % 2 ^ 64)
  | clearing (h : Clearing p v.on c l) (hzero : ∀ t, spent t = 0)

variable {p : SchedPlane} {v : TimerView} {c k t : ℕ} {spent : ℕ → ℕ} {rest : List StreamItem}

/-! ## The device -/

theorem RowsOk.pop {it : StreamItem} (h : RowsOk p v c spent (it :: rest))
    (hwork : it.work ≠ .write p.rowsClear) : RowsOk p v c spent rest := by
  rcases h with ⟨hcount, hrows⟩ | ⟨h, hzero⟩
  · exact .cleared (fun x hx => hcount x (List.mem_cons_of_mem it hx)) hrows
  · cases h with
    | clear hk hcount => exact absurd rfl hwork
    | older htag h => exact .clearing h hzero

/-- A queued write runs. -/
theorem RowsOk.write (hlaid : p.Laid) {m : ByteMem} {o : MemOp}
    (h : RowsOk p (p.timerView m) c spent (⟨k, .write o⟩ :: rest))
    (ho : p.SparesTimer o ∨ o = p.rowsClear) :
    RowsOk p (p.timerView (o.apply m)) c spent rest := by
  rcases h with ⟨hcount, hrows⟩ | ⟨h, hzero⟩
  · have hspares : p.SparesTimer o := hcount ⟨k, .write o⟩ List.mem_cons_self
    rw [SchedPlane.timerView_apply hspares]
    exact .cleared (fun x hx => hcount x (List.mem_cons_of_mem _ hx)) hrows
  · have hon : (p.timerView (o.apply m)).on = (p.timerView m).on := by
      rcases ho with hspares | rfl
      · rw [SchedPlane.timerView_apply hspares]
      · rw [SchedPlane.timerView_rowsClear hlaid]
    cases h with
    | clear hk hcount =>
        refine .cleared (hon.symm ▸ hcount) fun t _ => ?_
        rw [SchedPlane.timerView_rowsClear hlaid, hzero t]
        rfl
    | older htag h => exact .clearing (hon.symm ▸ h) hzero

/-- One CTA of a launch moves on. -/
theorem StreamItem.Counts.replace {on : Bool} {pre post : List TimedCta} {a a' : TimedCta}
    (h : StreamItem.Counts p on c ⟨k, .launch (pre ++ a :: post)⟩)
    (ha : a.pc.Counts on (k == c) → a'.pc.Counts on (k == c)) :
    StreamItem.Counts p on c ⟨k, .launch (pre ++ a' :: post)⟩ := by
  intro x hx
  rcases List.mem_append.1 hx with hx | hx
  · exact h x (List.mem_append_left _ hx)
  rcases List.mem_cons.1 hx with rfl | hx
  · exact ha (h a (List.mem_append_right _ List.mem_cons_self))
  · exact h x (List.mem_append_right _ (List.mem_cons_of_mem _ hx))

/-- The CTA at the head enters and latches the gate. -/
theorem RowsOk.enter {pre post : List TimedCta}
    (h : RowsOk p v c spent (⟨k, .launch (pre ++ ⟨t, .before⟩ :: post)⟩ :: rest)) :
    RowsOk p v c spent (⟨k, .launch (pre ++ ⟨t, .inside (!v.on)⟩ :: post)⟩ :: rest) := by
  rcases h with ⟨hcount, hrows⟩ | ⟨h, hzero⟩
  · obtain ⟨hhead, hrest⟩ := List.forall_mem_cons.1 hcount
    exact .cleared (List.forall_mem_cons.2 ⟨hhead.replace (congrArg (!·)), hrest⟩) hrows
  · cases h with
    | older htag h => exact .clearing (.older htag h) hzero

theorem spend_of_ne (cycles : ℕ → ℕ → ℕ) {k c : ℕ} (hne : c ≠ k) (t n : ℕ) :
    spend cycles k t n c = cycles c := Function.update_of_ne hne ..

theorem spend_self (cycles : ℕ → ℕ → ℕ) (k t n t' : ℕ) :
    spend cycles k t n k t' = if t' = t then cycles k t' + n else cycles k t' := by
  rw [spend, Function.update_self]
  by_cases ht : t' = t
  · rw [ht, Function.update_self, if_pos rfl]
  · rw [Function.update_of_ne ht, if_neg ht]

/-- The CTA at the head returns and adds its cycles if it latched the gate on. -/
theorem RowsOk.exit (hlaid : p.Laid) (hbase : 0 < p.base) {C : Config} (hC : p.BakesTimer C)
    {m : ByteMem} (hchan : p.TimerChannelOk m) {cycles : ℕ → ℕ → ℕ} {off : Bool}
    {pre post : List TimedCta} (n : ℕ)
    (h : RowsOk p (p.timerView m) c (cycles c)
      (⟨k, .launch (pre ++ ⟨t, .inside off⟩ :: post)⟩ :: rest)) :
    RowsOk p (p.timerView (emitTimer C p.slots m off t n)) c (spend cycles k t n c)
      (⟨k, .launch (pre ++ ⟨t, .returned⟩ :: post)⟩ :: rest) := by
  have hview := (SchedPlane.timerView_emitTimer hlaid hbase hchan hC t n).1
  have hon : (p.timerView (emitTimer C p.slots m off t n)).on = (p.timerView m).on := by
    cases off with
    | true => rw [emitTimer_off]
    | false => rw [hview]
  rcases h with ⟨hcount, hrows⟩ | ⟨h, hzero⟩
  · obtain ⟨hhead, hrest⟩ := List.forall_mem_cons.1 hcount
    have hoff : off = !(k == c) := hhead ⟨t, .inside off⟩ (by simp)
    refine .cleared (hon.symm ▸ List.forall_mem_cons.2 ⟨hhead.replace fun _ => trivial, hrest⟩) ?_
    intro t' ht'
    by_cases hkc : k = c
    · -- one of the probe's: the row and the log grow alike
      subst hkc
      obtain rfl : off = false := by simpa using hoff
      rw [hview, spend_self]
      by_cases htt : t' = t
      · simp only [htt, true_and]
        rw [if_pos (htt ▸ ht'), if_pos trivial, hrows t (htt ▸ ht'), Nat.mod_add_mod]
      · simp only [htt, false_and, if_false]
        exact hrows t' ht'
    -- another step's: it latched the gate off
    · rw [beq_false_of_ne hkc] at hoff
      subst hoff
      rw [Bool.not_false, emitTimer_off, spend_of_ne _ (Ne.symm hkc)]
      exact hrows t' ht'
  · cases h with
    | older htag h =>
        -- the clear is still ahead, whatever this CTA added
        refine .clearing (hon.symm ▸ .older htag h) fun t' => ?_
        rw [spend_of_ne _ (Ne.symm (Nat.ne_of_lt htag))]
        exact hzero t'

/-! ## The host -/

theorem Clearing.append {on : Bool} {l l' : List StreamItem} (h : Clearing p on c l)
    (hl' : ∀ it ∈ l', it.Counts p on c) : Clearing p on c (l ++ l') := by
  induction h with
  | clear hk hcount =>
      refine .clear hk fun it hit => ?_
      rcases List.mem_append.1 hit with hit | hit
      · exact hcount it hit
      · exact hl' it hit
  | older htag _ ih => exact .older htag ih

/-- Work is enqueued. -/
theorem RowsOk.append {l l' : List StreamItem} (h : RowsOk p v c spent l)
    (hl' : ∀ it ∈ l', it.Counts p v.on c) : RowsOk p v c spent (l ++ l') := by
  rcases h with ⟨hcount, hrows⟩ | ⟨h, hzero⟩
  · refine .cleared (fun it hit => ?_) hrows
    rcases List.mem_append.1 hit with hit | hit
    · exact hcount it hit
    · exact hl' it hit
  · exact .clearing (h.append hl') hzero

/-- The CTAs of a launch. -/
def StreamItem.ctas (it : StreamItem) : List TimedCta :=
  match it.work with
  | .launch ctas => ctas
  | _ => []

/-- Every CTA of the entry has entered. -/
def StreamItem.Entered (it : StreamItem) : Prop := ∀ a ∈ it.ctas, a.pc ≠ .before

/-- No CTA of the entry will add to a row. -/
def StreamItem.Silent (it : StreamItem) : Prop :=
  ∀ a ∈ it.ctas, a.pc = .returned ∨ a.pc = .inside true

instance (it : StreamItem) : Decidable it.Entered := inferInstanceAs (Decidable (∀ a ∈ it.ctas, _))

instance (it : StreamItem) : Decidable it.Silent := inferInstanceAs (Decidable (∀ a ∈ it.ctas, _))

/-- Turning the timer off keeps the count of a launch whose CTAs, if it is the probe's, have entered. -/
theorem StreamItem.Counts.turnOff {it : StreamItem} (h : it.Counts p true c)
    (hentered : it.tag = c → it.Entered) : it.Counts p false c := by
  unfold StreamItem.Counts at h ⊢
  split
  · next ctas hwork =>
      rw [hwork] at h
      intro a ha
      have hcount := h a ha
      cases hpc : a.pc with
      | before =>
          rw [hpc] at hcount
          have htag : it.tag = c := by simpa using hcount.symm
          have hmem : a ∈ it.ctas := by rwa [StreamItem.ctas, hwork]
          exact absurd hpc (hentered htag a hmem)
      | inside off => rwa [hpc] at hcount
      | returned => trivial
  · next o hwork => rwa [hwork] at h
  · trivial

theorem Clearing.turnOff {l : List StreamItem} (h : Clearing p true c l)
    (hentered : ∀ it ∈ l, it.tag = c → it.Entered) : Clearing p false c l := by
  induction h with
  | clear hk hcount =>
      exact .clear hk fun it hit => (hcount it hit).turnOff
        (hentered it (List.mem_cons_of_mem _ hit))
  | older htag _ ih => exact .older htag (ih fun it hit => hentered it (List.mem_cons_of_mem _ hit))

/-- The end hook's push. -/
theorem RowsOk.turnOff {l : List StreamItem} (h : RowsOk p v c spent l)
    (hentered : ∀ it ∈ l, it.tag = c → it.Entered) : RowsOk p { v with on := false } c spent l := by
  cases hon : v.on with
  | false =>
      have hv : ({ v with on := false } : TimerView) = v := by
        rw [← hon]
      rwa [hv]
  | true =>
      rcases h with ⟨hcount, hrows⟩ | ⟨h, hzero⟩
      · rw [hon] at hcount
        exact .cleared (fun it hit => (hcount it hit).turnOff (hentered it hit)) hrows
      · rw [hon] at h
        exact .clearing (h.turnOff hentered) hzero

/-- The rows of a new probe, right after the clear of host-mapped rows. -/
theorem RowsOk.hostClear {l : List StreamItem} (hrows : ∀ t < p.N, v.row t = 0)
    (hzero : ∀ t, spent t = 0) (htag : ∀ it ∈ l, it.tag < c) (hsilent : ∀ it ∈ l, it.Silent)
    (hwrites : ∀ it ∈ l, ∀ o, it.work = .write o → p.SparesTimer o) : RowsOk p v c spent l := by
  refine .cleared (fun it hit => ?_) fun t ht => ?_
  · have hmine : (it.tag == c) = false := beq_false_of_ne (htag it hit).ne
    unfold StreamItem.Counts
    split
    · next ctas hwork =>
        intro a ha
        have hmem : a ∈ it.ctas := by rwa [StreamItem.ctas, hwork]
        rw [hmine]
        rcases hsilent it hit a hmem with hpc | hpc
        · rw [hpc]
          trivial
        · rw [hpc]
          rfl
    · next o hwork => exact hwrites it hit o hwork
    · trivial
  · rw [hrows t ht, hzero t]
    rfl

/-- The rows of a new probe, with the clear of device rows enqueued behind everything. -/
theorem RowsOk.deviceClear {l : List StreamItem} (hk : k < c) (htag : ∀ it ∈ l, it.tag < c)
    (hzero : ∀ t, spent t = 0) :
    RowsOk p v c spent (l ++ [⟨k, .write p.rowsClear⟩]) := by
  refine .clearing ?_ hzero
  induction l with
  | nil => exact .clear hk fun it hit => absurd hit List.not_mem_nil
  | cons it l ih =>
      obtain ⟨hhead, hrest⟩ := List.forall_mem_cons.1 htag
      exact .older hhead (ih hrest)

/-! ## The stream -/

/-- What the clocks on the stream say: events separate earlier from later entries, a fired event has
    left nothing of its clock or before, and later clocks have spent nothing. -/
structure StreamOk (p : SchedPlane) (l : List StreamItem) (clock : ℕ) (fired : List ℕ)
    (cycles : ℕ → ℕ → ℕ) : Prop where
  tags : ∀ it ∈ l, it.tag ≤ clock
  events : ∀ it ∈ l, it.work = .event → it.tag < clock
  order : l.Pairwise fun x y => x.work = .event → x.tag < y.tag
  fired : ∀ k ∈ fired, k < clock ∧ ∀ it ∈ l, k < it.tag
  ledger : ∀ k, clock < k → ∀ t, cycles k t = 0
  writes : ∀ it ∈ l, ∀ o, it.work = .write o →
    p.SparesTimer o ∨ (o = p.rowsClear ∧ p.timerDev.isSome = true)

variable {l : List StreamItem} {clock : ℕ} {fired : List ℕ} {cycles : ℕ → ℕ → ℕ}

theorem StreamOk.pop {it : StreamItem} (h : StreamOk p (it :: l) clock fired cycles) :
    StreamOk p l clock fired cycles where
  tags := (List.forall_mem_cons.1 h.tags).2
  events := (List.forall_mem_cons.1 h.events).2
  order := (List.pairwise_cons.1 h.order).2
  fired := fun k hk => ⟨(h.fired k hk).1, (List.forall_mem_cons.1 (h.fired k hk).2).2⟩
  ledger := h.ledger
  writes := (List.forall_mem_cons.1 h.writes).2

theorem StreamOk.fire (h : StreamOk p (⟨k, .event⟩ :: l) clock fired cycles) :
    StreamOk p l clock (k :: fired) cycles := by
  refine { h.pop with fired := fun j hj => ?_ }
  rcases List.mem_cons.1 hj with rfl | hj
  · refine ⟨h.events ⟨j, .event⟩ List.mem_cons_self rfl, fun it hit => ?_⟩
    exact (List.pairwise_cons.1 h.order).1 it hit rfl
  · exact h.pop.fired j hj

theorem StreamOk.relaunch {ctas ctas' : List TimedCta}
    (h : StreamOk p (⟨k, .launch ctas⟩ :: l) clock fired cycles) :
    StreamOk p (⟨k, .launch ctas'⟩ :: l) clock fired cycles where
  tags := List.forall_mem_cons.2 (List.forall_mem_cons.1 h.tags)
  events := List.forall_mem_cons.2 ⟨fun hw => absurd hw (by simp), (List.forall_mem_cons.1 h.events).2⟩
  order := List.pairwise_cons.2 ⟨fun _ _ hw => absurd hw (by simp), (List.pairwise_cons.1 h.order).2⟩
  fired := fun j hj => ⟨(h.fired j hj).1, List.forall_mem_cons.2 (List.forall_mem_cons.1 (h.fired j hj).2)⟩
  ledger := h.ledger
  writes := List.forall_mem_cons.2 ⟨fun _ hw => absurd hw (by simp), (List.forall_mem_cons.1 h.writes).2⟩

theorem StreamOk.spend (h : StreamOk p l clock fired cycles) (hk : k ≤ clock) (t n : ℕ) :
    StreamOk p l clock fired (spend cycles k t n) := by
  refine { h with ledger := fun j hj t' => ?_ }
  rw [spend_of_ne _ (by omega)]
  exact h.ledger j hj t'

theorem StreamOk.append {l' : List StreamItem} (h : StreamOk p l clock fired cycles)
    (htag : ∀ it ∈ l', it.tag = clock) (hevent : ∀ it ∈ l', it.work ≠ .event)
    (hwrites : ∀ it ∈ l', ∀ o, it.work = .write o →
      p.SparesTimer o ∨ (o = p.rowsClear ∧ p.timerDev.isSome = true)) :
    StreamOk p (l ++ l') clock fired cycles where
  tags := List.forall_mem_append.2 ⟨h.tags, fun it hit => (htag it hit).le⟩
  events := List.forall_mem_append.2 ⟨h.events, fun it hit hw => absurd hw (hevent it hit)⟩
  order := by
    refine List.pairwise_append.2 ⟨h.order, ?_, fun x hx y hy hw => ?_⟩
    · exact List.pairwise_of_forall_mem_list fun x hx y _ hw => absurd hw (hevent x hx)
    · rw [htag y hy]
      exact h.events x hx hw
  fired := fun j hj => ⟨(h.fired j hj).1, List.forall_mem_append.2 ⟨(h.fired j hj).2, fun it hit => by
    rw [htag it hit]
    exact (h.fired j hj).1⟩⟩
  ledger := h.ledger
  writes := List.forall_mem_append.2 ⟨h.writes, hwrites⟩

theorem StreamOk.tick (h : StreamOk p l clock fired cycles) :
    StreamOk p l (clock + 1) fired cycles where
  tags := fun it hit => (h.tags it hit).trans (Nat.le_succ clock)
  events := fun it hit hw => Nat.lt_succ_of_lt (h.events it hit hw)
  order := h.order
  fired := fun j hj => ⟨Nat.lt_succ_of_lt (h.fired j hj).1, (h.fired j hj).2⟩
  ledger := fun j hj => h.ledger j (Nat.lt_of_succ_lt hj)
  writes := h.writes

/-- An event is recorded and the clock ticks. -/
theorem StreamOk.record (h : StreamOk p l clock fired cycles) :
    StreamOk p (l ++ [⟨clock, .event⟩]) (clock + 1) fired cycles where
  tags := List.forall_mem_append.2 ⟨h.tick.tags, List.forall_mem_singleton.2 (Nat.le_succ clock)⟩
  events := List.forall_mem_append.2
    ⟨h.tick.events, List.forall_mem_singleton.2 fun _ => Nat.lt_succ_self clock⟩
  order := by
    refine List.pairwise_append.2 ⟨h.order, List.pairwise_singleton _ _, fun x hx y hy hw => ?_⟩
    rw [List.mem_singleton.1 hy]
    exact h.events x hx hw
  fired := fun j hj => ⟨(h.tick.fired j hj).1,
    List.forall_mem_append.2 ⟨(h.fired j hj).2, List.forall_mem_singleton.2 (h.fired j hj).1⟩⟩
  ledger := h.tick.ledger
  writes := List.forall_mem_append.2
    ⟨h.writes, List.forall_mem_singleton.2 fun _ hw => absurd hw (by simp)⟩

end SchedPass
