import SchedPass.Plane.TimerView
import SchedPass.Plugin.TableInvariant

set_option autoImplicit false

/-! # Probe attribution over host histories

Batches pass through the begin hook, which may raise after any of its actions, the launch and the end
hook. What the timer rows hold is kept on the books beside the host: the batches that were launched
with the timer published on since the rows were last cleared, and what was folded from which rows. The
end hook queues `_STATE["binding"]` whenever `_STATE["timer_armed"]` is set, so a begin hook that raises
before it sets the one or the other leaves a stale pair behind (`Attributable`). While none does so, every
fold is of rows that hold one batch, under that batch's binding, and no rows are folded twice
(`probes_attributed`). -/

namespace SchedPass

variable {K : Type}

/-! ## The books -/

/-- One fold: which clear the rows go back to, the batches they held, and the binding used. -/
structure ProbeFold (K : Type) where
  epoch : ℕ
  timed : List (Option (Binding K))
  binding : Binding K
  deriving DecidableEq

/-- `reading` is the local binding of `_consume_probe`; the rest is not in the code: the number of
    clears, the batches launched since the last one with the timer on, and the folds. -/
structure ProbeBook (K : Type) where
  reading : Option (Binding K) := none
  epoch : ℕ := 0
  timed : List (Option (Binding K)) := []
  folds : List (ProbeFold K) := []

/-- An action on the books, with `pending` as it was before. -/
def ProbeBook.note (k : ProbeBook K) (pending : Option (Option (Binding K))) :
    HookAct K → ProbeBook K
  | .setPending none => { k with reading := pending.join }
  | .foldProbe =>
      match k.reading with
      | some b => { k with folds := k.folds ++ [⟨k.epoch, k.timed, b⟩] }
      | none => k
  | .plane .clearTimer => { k with epoch := k.epoch + 1, timed := [] }
  | _ => k

/-- A launch of a batch whose binding is `own`. -/
def ProbeBook.launch (k : ProbeBook K) (on : Bool) (own : Option (Binding K)) : ProbeBook K :=
  if on then { k with timed := k.timed ++ [own] } else k

/-- No rows are folded twice, and what is folded holds the binding's own batch and no other. -/
def ProbeBook.Attributed (k : ProbeBook K) : Prop :=
  (k.folds.map ProbeFold.epoch).Nodup ∧ ∀ f ∈ k.folds, f.timed = [some f.binding]

instance [DecidableEq K] (k : ProbeBook K) : Decidable k.Attributed :=
  inferInstanceAs (Decidable (_ ∧ _))

/-! ## Histories -/

/-- The host with the memory that the kernels see, and the books. -/
structure ProbeHost (K : Type) where
  host : Host K
  mem : ByteMem
  book : ProbeBook K := {}

/-- What the begin hook would bind for the batch; `none` without slot indices. -/
def Batch.binding (b : Batch K) : Option (Binding K) :=
  b.reqs.map fun reqs => ⟨reqs.map fun r => (r.slot, r.kv), b.tileToReq, b.ntiles reqs⟩

namespace ProbeHost

/-- The published gate; without a plane there is no woven kernel. -/
def gateOn (s : ProbeHost K) : Bool :=
  match s.host.plane with
  | some p => (p.timerView s.mem).on
  | none => false

def act (cfg : PluginConfig K) (s : ProbeHost K) (a : HookAct K) : Option (ProbeHost K) :=
  (s.host.act cfg a).map fun (h, w) =>
    ⟨h, applyOps s.mem w, s.book.note s.host.plugin.pending a⟩

/-- A list of actions, until one raises. -/
def acts (cfg : PluginConfig K) (s : ProbeHost K) (as : List (HookAct K)) : Option (ProbeHost K) :=
  as.foldlM (act cfg) s

def launch (s : ProbeHost K) (own : Option (Binding K)) : ProbeHost K :=
  { s with book := s.book.launch s.gateOn own }

variable [Zero K]

/-- The begin hook up to action `stop`. -/
def beginActs (cfg : PluginConfig K) (s : ProbeHost K) (b : Batch K) (stop : ℕ) : List (HookAct K) :=
  (onBatchBegin cfg s.host.plugin b).take stop

/-- `run_batch` between its hooks; the exception that may have ended the first is swallowed. -/
def runBatch (cfg : PluginConfig K) (s : ProbeHost K) (b : Batch K) (stop : ℕ) :
    Option (ProbeHost K) := do
  let s₁ ← s.acts cfg (s.beginActs cfg b stop)
  let s₂ := s₁.launch b.binding
  s₂.acts cfg (onBatchEnd s₂.host.plugin s₂.host.plane.isSome)

/-- The plugin after import. -/
def boot (m : ByteMem) (R : ℤ) : ProbeHost K := ⟨⟨{ clcR := R }, none⟩, m, {}⟩

/-- A batch is launched without its hooks, or with them, where the begin hook ends as `ok` says. -/
inductive Passes (cfg : PluginConfig K) (ok : ProbeHost K → Batch K → ℕ → Prop) :
    ProbeHost K → ProbeHost K → Prop
  | skipped {s : ProbeHost K} (b : Batch K) : Passes cfg ok s (s.launch b.binding)
  | hooked {s s' : ProbeHost K} (b : Batch K) (stop : ℕ) (hok : ok s b stop)
      (hrun : s.runBatch cfg b stop = some s') : Passes cfg ok s s'

end ProbeHost

/-! ## Where the begin hook may stop -/

def HookAct.setsArmed : HookAct K → Bool
  | .setTimerArmed _ => true
  | _ => false

def HookAct.setsBinding : HookAct K → Bool
  | .setBinding _ => true
  | _ => false

def HookAct.arms : HookAct K → Bool
  | .setTimerArmed true => true
  | _ => false

def HookAct.folds : HookAct K → Bool
  | .foldProbe => true
  | _ => false

/-- The begin hook may stop after `as`: it has not folded a probe whose `timer_armed` it leaves set, and
    not armed one whose binding it leaves to an older batch's. -/
def Attributable (st : PluginState K) (as : List (HookAct K)) : Prop :=
  (st.timerArmed = true → as.any HookAct.folds = true → as.any HookAct.setsArmed = true) ∧
    (st.binding.isSome = true → as.any HookAct.arms = true → as.any HookAct.setsBinding = true)

instance (st : PluginState K) (as : List (HookAct K)) : Decidable (Attributable st as) :=
  inferInstanceAs (Decidable (_ ∧ _))

/-! ## The probe's view of the host -/

/-- What attribution rests on: `timer_armed`, `pending`, `binding`, the mirror's and the published gate,
    and the books. -/
@[ext]
structure ProbeView (K : Type) where
  armed : Bool
  pending : Option (Option (Binding K))
  binding : Option (Binding K)
  mirrorOn : Bool
  on : Bool
  book : ProbeBook K

namespace ProbeView

/-- An action's meaning on views. -/
def act (v : ProbeView K) (a : HookAct K) : ProbeView K :=
  let v := { v with book := v.book.note v.pending a }
  match a with
  | .setTimerArmed armed => { v with armed := armed }
  | .setBinding b => { v with binding := some b }
  | .setPending q => { v with pending := q }
  | .plane (.setTimerEnabled on) => { v with mirrorOn := on }
  | .plane .push => { v with on := v.mirrorOn }
  | _ => v

/-- The action means nothing to the view. -/
def Inert : HookAct K → Bool
  | .setTimerArmed _ | .setBinding _ | .setPending _ | .foldProbe | .plane (.setTimerEnabled _)
  | .plane .push | .plane .clearTimer => false
  | _ => true

theorem act_of_inert {v : ProbeView K} {a : HookAct K} (ha : Inert a = true) : v.act a = v := by
  cases a with
  | plane op => cases op <;> first | rfl | exact absurd ha Bool.false_ne_true
  | setTimerArmed _ | setBinding _ | setPending _ | foldProbe => exact absurd ha Bool.false_ne_true
  | _ => rfl

end ProbeView

open ProbeView (Inert)

/-- The actions that mean something to the view. -/
def probeActs (as : List (HookAct K)) : List (HookAct K) := as.filter fun a => !Inert a

theorem probeActs_append (as bs : List (HookAct K)) :
    probeActs (as ++ bs) = probeActs as ++ probeActs bs := List.filter_append _ _

theorem probeActs_cons_inert {a : HookAct K} (ha : Inert a = true) (as : List (HookAct K)) :
    probeActs (a :: as) = probeActs as := List.filter_cons_of_neg (by simp [ha])

theorem foldl_probeActs (as : List (HookAct K)) (v : ProbeView K) :
    as.foldl ProbeView.act v = (probeActs as).foldl ProbeView.act v := by
  induction as generalizing v with
  | nil => rfl
  | cons a as ih =>
      cases ha : Inert a with
      | true => rw [List.foldl_cons, ProbeView.act_of_inert ha, ih, probeActs_cons_inert ha]
      | false =>
          have hcons : probeActs (a :: as) = a :: probeActs as :=
            List.filter_cons_of_pos (by simp [ha])
          rw [List.foldl_cons, ih, hcons, List.foldl_cons]

/-! ## The begin hook on views -/

/-- What `_consume_probe` does to the view. -/
inductive Consumes : Option (Option (Binding K)) → List (HookAct K) → Prop
  | kept {pending : Option (Option (Binding K))} : Consumes pending []
  | dropped : Consumes (some none) [.setPending none]
  | folded {b : Binding K} : Consumes (some (some b)) [.setPending none, .foldProbe]

/-- What the begin hook of a batch bound to `own` does to the view. -/
inductive BeginShape (pending : Option (Option (Binding K))) (own : Option (Binding K)) :
    List (HookAct K) → Prop
  | untouched : BeginShape pending own []
  | offCadence : BeginShape pending own [.setTimerArmed false]
  | ended {as : List (HookAct K)} (hc : Consumes pending as) : BeginShape pending own as
  | planned {as : List (HookAct K)} (hc : Consumes pending as) {b : Binding K} (hown : own = some b) :
      BeginShape pending own
        (as ++ [.plane (.setTimerEnabled false), .setTimerArmed false, .plane .push, .setBinding b])
  | sampled (hnone : pending = none) {b : Binding K} (hown : own = some b) :
      BeginShape pending own [.plane (.setTimerEnabled true), .setTimerArmed true, .plane .push,
        .plane .clearTimer, .setBinding b]

section

variable {cfg : PluginConfig K} {st : PluginState K} {b : Batch K}

theorem consumes_consumeActs : Consumes st.pending (probeActs (consumeActs st b)) := by
  unfold consumeActs
  cases st.pending with
  | none => exact .kept
  | some binding =>
      dsimp only
      split
      · exact .kept
      · cases binding with
        | none => exact .dropped
        | some b => exact .folded

theorem probeActs_onBatchEnd (st : PluginState K) :
    probeActs (onBatchEnd st true) = if st.timerArmed then [.setPending (some st.binding),
      .plane (.setTimerEnabled false), .plane .push] else [] := by
  simp only [onBatchEnd, Bool.not_true, Bool.false_eq_true, if_false]
  rw [probeActs_cons_inert rfl]
  split <;> rfl

variable [Zero K]

theorem probeActs_planActs (reqs : List (Req K)) (costs : List K) :
    probeActs (planActs cfg st b reqs costs)
      = [.plane (.setTimerEnabled (isProbe cfg st)), .setTimerArmed (isProbe cfg st), .plane .push]
        ++ (if isProbe cfg st then [.plane .clearTimer] else [])
        ++ [.setBinding ⟨reqs.map fun r => (r.slot, r.kv), b.tileToReq, b.ntiles reqs⟩] := by
  have hbranch : probeActs (branchActs cfg st b costs (b.ntiles reqs)) = [] := by
    unfold branchActs installOrder
    cases branch cfg st b (b.ntiles reqs) with
    | retire =>
        dsimp only
        split <;> rfl
    | _ => rfl
  have hhint : probeActs (hintActs b (b.ntiles reqs)) = [] := by
    refine List.filter_eq_nil_iff.2 fun a ha => ?_
    unfold hintActs at ha
    split at ha
    · exact absurd ha List.not_mem_nil
    · obtain ⟨k, -, rfl⟩ := List.mem_map.1 ha
      simp [Inert]
  have hplan : probeActs (if cfg.observeOnly then [.plane (.setNumTasks 0)]
      else branchActs cfg st b costs (b.ntiles reqs) ++ hintActs b (b.ntiles reqs)) = [] := by
    split
    · rfl
    · rw [probeActs_append, hbranch, hhint, List.append_nil]
  unfold planActs
  simp only [probeActs_append, hplan]
  cases isProbe cfg st <;> rfl

theorem beginShape : BeginShape st.pending b.binding (probeActs (onBatchBegin cfg st b)) := by
  have hconsume : Consumes st.pending (probeActs (consumeActs st b)) := consumes_consumeActs
  unfold onBatchBegin
  rw [probeActs_cons_inert rfl]
  by_cases hcad : onCadence cfg st = true
  · cases hreqs : b.reqs with
    | none =>
        simp only [hcad, Bool.not_true, Bool.false_eq_true, if_false]
        exact .untouched
    | some reqs =>
        have hown : b.binding
            = some ⟨reqs.map fun r => (r.slot, r.kv), b.tileToReq, b.ntiles reqs⟩ := by
          rw [Batch.binding, hreqs, Option.map_some]
        simp only [hcad, Bool.not_true, Bool.false_eq_true, if_false]
        rw [probeActs_cons_inert rfl]
        split
        · exact .untouched
        rw [List.append_assoc, probeActs_append]
        split
        · exact .ended ((List.append_nil _).symm ▸ hconsume)
        · next costs _ =>
            rw [List.singleton_append, probeActs_cons_inert rfl, probeActs_planActs]
            cases hprobe : isProbe cfg st with
            | false => exact .planned hconsume hown
            | true =>
                have hnone : st.pending = none := by
                  unfold isProbe at hprobe
                  rw [Bool.and_eq_true] at hprobe
                  exact Option.isNone_iff_eq_none.1 hprobe.2
                have hnil : probeActs (consumeActs st b) = [] := by
                  rw [consumeActs, hnone]
                  rfl
                rw [hnil]
                exact .sampled hnone hown
  · simp only [hcad, Bool.not_false, if_true]
    exact .offCadence

end

/-! ## One step on views -/

namespace ProbeView

variable {v : ProbeView K}

/-- The rows hold the batch of `b` alone and were not folded. -/
def Holds (v : ProbeView K) (b : Binding K) : Prop :=
  v.book.timed = [some b] ∧ ∀ f ∈ v.book.folds, f.epoch ≠ v.book.epoch

/-- The rows of a pending binding hold its batch, with the timer off. -/
structure Sound (v : ProbeView K) : Prop where
  pending : ∀ b, v.pending = some (some b) → v.on = false ∧ v.Holds b
  epochs : ∀ f ∈ v.book.folds, f.epoch ≤ v.book.epoch
  folds : v.book.Attributed

/-- Between batches an armed timer's binding is the pending one. -/
structure Ok (v : ProbeView K) : Prop extends v.Sound where
  armed : v.armed = true → v.pending = some v.binding

/-- After the begin hook of a batch bound to `own` the rows of an armed timer's binding hold its batch
    already, or are clear for this one, with the timer on. -/
structure Begun (own : Option (Binding K)) (v : ProbeView K) : Prop extends v.Sound where
  armed : v.armed = true → ∀ b, v.binding = some b → (v.on = false ∧ v.Holds b) ∨
    (v.on = true ∧ own = some b ∧ v.book.timed = [] ∧ ∀ f ∈ v.book.folds, f.epoch ≠ v.book.epoch)

/-- After the launch they hold its batch. -/
structure Launched (v : ProbeView K) : Prop extends v.Sound where
  armed : v.armed = true → ∀ b, v.binding = some b → v.Holds b

def launch (v : ProbeView K) (own : Option (Binding K)) : ProbeView K :=
  { v with book := v.book.launch v.on own }

/-- Where the begin hook may stop, by what it does to the view. -/
def MayStop (v : ProbeView K) (as : List (HookAct K)) : Prop :=
  (v.armed = true → as.any HookAct.folds = true → as.any HookAct.setsArmed = true) ∧
    (v.binding.isSome = true → as.any HookAct.arms = true → as.any HookAct.setsBinding = true)

variable {own : Option (Binding K)} {full ops : List (HookAct K)}

theorem Ok.begun (h : v.Ok) (own : Option (Binding K)) : v.Begun own := by
  refine ⟨h.toSound, fun harmed b hb => Or.inl ?_⟩
  have hpending := h.armed harmed
  rw [hb] at hpending
  exact h.pending b hpending

/-- Reading and folding the pending probe. -/
theorem Ok.consume (h : v.Ok) (hc : Consumes v.pending full) (hpre : ops <+: full) :
    (ops.foldl act v).Sound ∧
      ((v.armed = true → ops.any HookAct.folds = false) → (ops.foldl act v).Begun own) := by
  -- the pending probe is taken down, and not yet folded
  have htaken : (v.act (.setPending none)).Begun own :=
    ⟨⟨fun _ hb => absurd hb (by simp [act]), h.epochs, h.folds⟩, (h.begun own).armed⟩
  generalize hpend : v.pending = pending at hc
  cases hc with
  | kept =>
      obtain rfl := List.prefix_nil.1 hpre
      exact ⟨h.toSound, fun _ => h.begun own⟩
  | dropped =>
      rcases List.prefix_cons_iff.1 hpre with rfl | ⟨t, rfl, ht⟩
      · exact ⟨h.toSound, fun _ => h.begun own⟩
      · obtain rfl := List.prefix_nil.1 ht
        exact ⟨htaken.toSound, fun _ => htaken⟩
  | @folded b =>
      rcases List.prefix_cons_iff.1 hpre with rfl | ⟨t, rfl, ht⟩
      · exact ⟨h.toSound, fun _ => h.begun own⟩
      rcases List.prefix_cons_iff.1 ht with rfl | ⟨u, rfl, hu⟩
      · exact ⟨htaken.toSound, fun _ => htaken⟩
      obtain rfl := List.prefix_nil.1 hu
      obtain ⟨-, htimed, hfresh⟩ := h.pending b hpend
      obtain ⟨hnodup, hfolds⟩ := h.folds
      have hbook : ([.setPending none, .foldProbe].foldl act v).book = { v.book with
          reading := some b, folds := v.book.folds ++ [⟨v.book.epoch, v.book.timed, b⟩] } := by
        simp [act, ProbeBook.note, hpend]
      have hsound : ([.setPending none, .foldProbe].foldl act v).Sound := by
        refine ⟨fun _ hb => absurd hb (by simp [act]), ?_, ?_, ?_⟩
        · rw [hbook]
          intro f hf
          rcases List.mem_append.1 hf with hf | hf
          · exact h.epochs f hf
          · rw [List.mem_singleton.1 hf]
        · rw [hbook, List.map_append, List.nodup_append]
          refine ⟨hnodup, List.nodup_singleton _, fun e he e' he' => ?_⟩
          obtain ⟨f, hf, rfl⟩ := List.mem_map.1 he
          obtain rfl : e' = v.book.epoch := by simpa using he'
          exact hfresh f hf
        · rw [hbook]
          intro f hf
          rcases List.mem_append.1 hf with hf | hf
          · exact hfolds f hf
          · rw [List.mem_singleton.1 hf]
            exact htimed
      refine ⟨hsound, fun hfold => ⟨hsound, fun harmed => absurd (hfold harmed) ?_⟩⟩
      simp [HookAct.folds]

/-- The rest of a hook that plans without a probe. -/
theorem Sound.plan (h : v.Sound) {b : Binding K} (hpre : ops <+: [.plane (.setTimerEnabled false),
      .setTimerArmed false, .plane .push, .setBinding b])
    (hstop : ops.any HookAct.setsArmed = false → v.Begun own) : (ops.foldl act v).Begun own := by
  rcases List.prefix_cons_iff.1 hpre with rfl | ⟨t, rfl, ht⟩
  · exact hstop rfl
  rcases List.prefix_cons_iff.1 ht with rfl | ⟨u, rfl, hu⟩
  · exact ⟨⟨h.pending, h.epochs, h.folds⟩, (hstop rfl).armed⟩
  rcases List.prefix_cons_iff.1 hu with rfl | ⟨z, rfl, hz⟩
  · exact ⟨⟨h.pending, h.epochs, h.folds⟩, fun harmed => absurd harmed Bool.false_ne_true⟩
  have hpushed : ∀ b, v.pending = some (some b) → false = false ∧ v.Holds b :=
    fun b hb => ⟨rfl, (h.pending b hb).2⟩
  rcases List.prefix_cons_iff.1 hz with rfl | ⟨y, rfl, hy⟩
  · exact ⟨⟨hpushed, h.epochs, h.folds⟩, fun harmed => absurd harmed Bool.false_ne_true⟩
  obtain rfl := List.prefix_nil.1 hy
  exact ⟨⟨hpushed, h.epochs, h.folds⟩, fun harmed => absurd harmed Bool.false_ne_true⟩

/-- A hook that starts a probe. -/
theorem Ok.sample (h : v.Ok) (hnone : v.pending = none) {b : Binding K} (hown : own = some b)
    (hpre : ops <+: [.plane (.setTimerEnabled true), .setTimerArmed true, .plane .push,
      .plane .clearTimer, .setBinding b])
    (hstop : v.binding.isSome = true → ops.any HookAct.arms = true →
      ops.any HookAct.setsBinding = true) : (ops.foldl act v).Begun own := by
  have hdisarmed : v.armed = false := by
    by_contra harmed
    have hpending := h.armed (by simpa using harmed)
    simp [hnone] at hpending
  have hpending : ∀ {P : Binding K → Prop} (b : Binding K), v.pending = some (some b) → P b :=
    fun b hb => absurd hb (by simp [hnone])
  have hle : ∀ f ∈ v.book.folds, f.epoch ≤ v.book.epoch + 1 :=
    fun f hf => (h.epochs f hf).trans (Nat.le_succ _)
  -- an armed timer whose binding is still to come
  have hunbound : ∀ {P : Binding K → Prop}, (v.binding.isSome = true → false = true) →
      ∀ b, v.binding = some b → P b :=
    fun hno b hb => absurd (hno (by rw [hb]; rfl)) Bool.false_ne_true
  rcases List.prefix_cons_iff.1 hpre with rfl | ⟨t, rfl, ht⟩
  · exact h.begun own
  rcases List.prefix_cons_iff.1 ht with rfl | ⟨u, rfl, hu⟩
  · exact ⟨⟨hpending, h.epochs, h.folds⟩, fun harmed => absurd (hdisarmed.symm.trans harmed) (by simp)⟩
  rcases List.prefix_cons_iff.1 hu with rfl | ⟨z, rfl, hz⟩
  · exact ⟨⟨hpending, h.epochs, h.folds⟩, fun _ => hunbound fun hb => hstop hb rfl⟩
  rcases List.prefix_cons_iff.1 hz with rfl | ⟨y, rfl, hy⟩
  · exact ⟨⟨hpending, h.epochs, h.folds⟩, fun _ => hunbound fun hb => hstop hb rfl⟩
  rcases List.prefix_cons_iff.1 hy with rfl | ⟨x, rfl, hx⟩
  · exact ⟨⟨hpending, hle, h.folds⟩, fun _ => hunbound fun hb => hstop hb rfl⟩
  obtain rfl := List.prefix_nil.1 hx
  refine ⟨⟨hpending, hle, h.folds⟩, fun _ b' hb' => Or.inr ⟨rfl, hown.trans hb', rfl, ?_⟩⟩
  exact fun f hf => (Nat.lt_succ_of_le (h.epochs f hf)).ne

theorem Consumes.disarms {pending : Option (Option (Binding K))} (hc : Consumes pending full)
    (hpre : ops <+: full) : ops.any HookAct.setsArmed = false := by
  refine List.any_eq_false.2 fun a ha => ?_
  have hmem := hpre.subset ha
  cases hc with
  | kept => exact absurd hmem List.not_mem_nil
  | dropped =>
      rw [List.mem_singleton.1 hmem]
      exact Bool.false_ne_true
  | folded =>
      simp only [List.mem_cons, List.not_mem_nil, or_false] at hmem
      rcases hmem with rfl | rfl <;> exact Bool.false_ne_true

/-- **A begin hook that may stop there.** -/
theorem Ok.begin (h : v.Ok) (hshape : BeginShape v.pending own full) (hpre : ops <+: full)
    (hstop : v.MayStop ops) : (ops.foldl act v).Begun own := by
  obtain ⟨hfold, hbind⟩ := hstop
  cases hshape with
  | untouched =>
      obtain rfl := List.prefix_nil.1 hpre
      exact h.begun own
  | offCadence =>
      rcases List.prefix_cons_iff.1 hpre with rfl | ⟨t, rfl, ht⟩
      · exact h.begun own
      · obtain rfl := List.prefix_nil.1 ht
        exact ⟨⟨h.pending, h.epochs, h.folds⟩, fun harmed => absurd harmed Bool.false_ne_true⟩
  | ended hc =>
      refine (h.consume hc hpre).2 fun harmed => ?_
      by_contra hfolds
      have hset := hfold harmed (by simpa using hfolds)
      rw [Consumes.disarms hc hpre] at hset
      exact Bool.false_ne_true hset
  | @planned cs hc b hown =>
      obtain ⟨rest, hrest⟩ := hpre
      rcases List.append_eq_append_iff.1 hrest with ⟨cs', rfl, -⟩ | ⟨tail, rfl, htail⟩
      · have hcs : ops <+: ops ++ cs' := List.prefix_append _ _
        refine (h.consume hc hcs).2 fun harmed => ?_
        by_contra hfolds
        have hset := hfold harmed (by simpa using hfolds)
        rw [Consumes.disarms hc hcs] at hset
        exact Bool.false_ne_true hset
      · rw [List.foldl_append]
        have hconsume : (cs.foldl act v).Sound ∧
            ((v.armed = true → cs.any HookAct.folds = false) → (cs.foldl act v).Begun own) :=
          h.consume hc (List.prefix_refl cs)
        refine hconsume.1.plan ⟨rest, htail.symm⟩ fun hset => hconsume.2 fun harmed => ?_
        by_contra hfolds
        have hall := hfold harmed (by simpa using Or.inl (by simpa using hfolds))
        rw [List.any_append, hset, Consumes.disarms hc (List.prefix_refl cs)] at hall
        exact Bool.false_ne_true hall
  | sampled hnone hown => exact h.sample hnone hown hpre hbind

/-- The launch puts the batch on clear rows, with the timer on, and nowhere else. -/
theorem Begun.launch (h : v.Begun own) : (v.launch own).Launched := by
  have hoff : v.on = false → v.book.launch v.on own = v.book := fun hoff => by
    rw [hoff]
    rfl
  have hfolds : (v.book.launch v.on own).folds = v.book.folds ∧
      (v.book.launch v.on own).epoch = v.book.epoch := by
    unfold ProbeBook.launch
    split <;> exact ⟨rfl, rfl⟩
  refine ⟨⟨fun b hb => ?_, ?_, ?_⟩, fun harmed b hb => ?_⟩
  · obtain ⟨hon, hholds⟩ := h.pending b hb
    refine ⟨hon, ?_⟩
    simp only [Holds, ProbeView.launch, hoff hon]
    exact hholds
  · simp only [ProbeView.launch, hfolds.1, hfolds.2]
    exact h.epochs
  · simp only [ProbeView.launch, ProbeBook.Attributed, hfolds.1]
    exact h.folds
  · rcases h.armed harmed b hb with ⟨hon, hholds⟩ | ⟨hon, rfl, htimed, hfresh⟩
    · simp only [Holds, ProbeView.launch, hoff hon]
      exact hholds
    · refine ⟨?_, by simpa only [ProbeView.launch, hfolds.1, hfolds.2] using hfresh⟩
      simp only [ProbeView.launch, ProbeBook.launch, hon, if_true, htimed, List.nil_append]

/-- A batch that passes without its hooks. -/
theorem Ok.launch (h : v.Ok) (own : Option (Binding K)) : (v.launch own).Ok :=
  ⟨(h.begun own).launch.toSound, h.armed⟩

/-- The end hook queues an armed timer's binding and turns the timer off. -/
theorem Launched.finish (h : v.Launched) : ((if v.armed then [.setPending (some v.binding),
    .plane (.setTimerEnabled false), .plane .push] else []).foldl act v).Ok := by
  split
  · next harmed =>
      refine ⟨⟨fun b hb => ⟨rfl, ?_⟩, h.epochs, h.folds⟩, fun _ => rfl⟩
      exact h.armed harmed b (Option.some.inj hb)
  · next hdisarmed => exact ⟨h.toSound, fun harmed => absurd harmed hdisarmed⟩

end ProbeView

/-! ## Hosts -/

namespace ProbeHost

variable {cfg : PluginConfig K} {s s' s₁ : ProbeHost K} {p : SchedPlane}

def view (s : ProbeHost K) : ProbeView K where
  armed := s.host.plugin.timerArmed
  pending := s.host.plugin.pending
  binding := s.host.plugin.binding
  mirrorOn := s.host.plane.elim true SchedPlane.mirrorOn
  on := s.gateOn
  book := s.book

theorem gateOn_some (hp : s.host.plane = some p) : s.gateOn = (p.timerView s.mem).on := by
  rw [gateOn, hp]

/-- **An action does to the host what it means on views**, where there is a plane. -/
theorem view_act (hlaid : p.Laid) (hp : s.host.plane = some p) {a : HookAct K}
    (hact : s.act cfg a = some s') :
    ∃ p', s'.host.plane = some p' ∧ p'.Laid ∧ s'.view = s.view.act a := by
  obtain ⟨⟨h', w⟩, hhost, rfl⟩ := Option.map_eq_some_iff.1 hact
  cases a with
  | plane op =>
      simp only [Host.act, hp, Option.bind_eq_bind, Option.bind_some, Option.bind_eq_some_iff] at hhost
      obtain ⟨⟨p', w'⟩, hexec, heq⟩ := hhost
      cases heq
      refine ⟨p', rfl, hlaid.congr (SchedPlane.sameLayout_exec hexec), ?_⟩
      have hon := SchedPlane.timerOn_exec (m := s.mem) hlaid hexec
      have hmirror := SchedPlane.mirrorOn_exec hexec
      have hview : view ⟨{ s.host with plane := some p' }, applyOps s.mem w',
          s.book.note s.host.plugin.pending (.plane op)⟩
            = { s.view with
                mirrorOn := p'.mirrorOn
                on := (p'.timerView (applyOps s.mem w')).on
                book := s.book.note s.host.plugin.pending (.plane op) } := rfl
      rw [hview, hon, hmirror, ← gateOn_some hp]
      cases op <;> simp [ProbeView.act, view, hp]
  | createPlane =>
      simp only [Host.act, hp] at hhost
      cases hhost
      exact ⟨p, hp, hlaid, rfl⟩
  | raise => exact absurd hhost (by simp [Host.act])
  | _ =>
      cases hhost
      exact ⟨p, hp, hlaid, rfl⟩

theorem view_acts (hlaid : p.Laid) (hp : s.host.plane = some p) {as : List (HookAct K)}
    (hrun : s.acts cfg as = some s') :
    ∃ p', s'.host.plane = some p' ∧ p'.Laid ∧ s'.view = as.foldl ProbeView.act s.view := by
  induction as generalizing s p with
  | nil =>
      cases hrun
      exact ⟨p, hp, hlaid, rfl⟩
  | cons a as ih =>
      rw [acts, List.foldlM_cons, Option.bind_eq_bind, Option.bind_eq_some_iff] at hrun
      obtain ⟨s₁, hact, hrest⟩ := hrun
      obtain ⟨p₁, hp₁, hlaid₁, hview₁⟩ := view_act hlaid hp hact
      obtain ⟨p', hp', hlaid', hview'⟩ := ih hlaid₁ hp₁ hrest
      exact ⟨p', hp', hlaid', by rw [hview', hview₁, List.foldl_cons]⟩

/-- Between batches. Without a plane nothing was armed. -/
structure Ok (s : ProbeHost K) : Prop where
  laid : ∀ p, s.host.plane = some p → p.Laid
  unborn : s.host.plane = none → s.host.plugin.pending = none ∧ s.host.plugin.timerArmed = false
  view : s.view.Ok

theorem Ok.boot (m : ByteMem) (R : ℤ) : (boot m R : ProbeHost K).Ok := by
  refine ⟨fun _ hp => absurd hp (by simp [ProbeHost.boot]), fun _ => ⟨rfl, rfl⟩, ⟨⟨?_, ?_, ?_⟩, ?_⟩⟩
  · exact fun _ hb => absurd hb (by simp [ProbeHost.view, ProbeHost.boot])
  · exact fun f hf => absurd hf List.not_mem_nil
  · exact ⟨List.nodup_nil, fun f hf => absurd hf List.not_mem_nil⟩
  · exact fun harmed => absurd harmed Bool.false_ne_true

theorem acts_cons_iff {a : HookAct K} {as : List (HookAct K)} :
    s.acts cfg (a :: as) = some s' ↔ ∃ s₁, s.act cfg a = some s₁ ∧ s₁.acts cfg as = some s' := by
  rw [acts, List.foldlM_cons, Option.bind_eq_bind, Option.bind_eq_some_iff]
  rfl

theorem any_probeActs {f : HookAct K → Bool} (hf : ∀ a, f a = true → Inert a = false)
    (as : List (HookAct K)) : (probeActs as).any f = as.any f := by
  rw [Bool.eq_iff_iff, List.any_eq_true, List.any_eq_true]
  constructor
  · rintro ⟨a, ha, hfa⟩
    exact ⟨a, (List.mem_filter.1 ha).1, hfa⟩
  · rintro ⟨a, ha, hfa⟩
    exact ⟨a, List.mem_filter.2 ⟨ha, by simp [hf a hfa]⟩, hfa⟩

theorem mayStop_of_attributable {v : ProbeView K} {as : List (HookAct K)} {st : PluginState K}
    (h : Attributable st as) (harmed : v.armed = st.timerArmed) (hbinding : v.binding = st.binding) :
    v.MayStop (probeActs as) := by
  have hfolds : ∀ a : HookAct K, a.folds = true → Inert a = false := by
    intro a ha
    unfold HookAct.folds at ha
    split at ha <;> first | rfl | exact absurd ha Bool.false_ne_true
  have hset : ∀ a : HookAct K, a.setsArmed = true → Inert a = false := by
    intro a ha
    unfold HookAct.setsArmed at ha
    split at ha <;> first | rfl | exact absurd ha Bool.false_ne_true
  have harms : ∀ a : HookAct K, a.arms = true → Inert a = false := by
    intro a ha
    unfold HookAct.arms at ha
    split at ha <;> first | rfl | exact absurd ha Bool.false_ne_true
  have hbind : ∀ a : HookAct K, a.setsBinding = true → Inert a = false := by
    intro a ha
    unfold HookAct.setsBinding at ha
    split at ha <;> first | rfl | exact absurd ha Bool.false_ne_true
  rw [ProbeView.MayStop, any_probeActs hfolds, any_probeActs hset, any_probeActs harms,
    any_probeActs hbind, harmed, hbinding]
  exact h

/-! ## The plane's first batch -/

/-- Up to the creation of the plane nothing but the step is counted, and the timer disarmed. -/
inductive StartsBare : List (HookAct K) → Prop
  | nil : StartsBare []
  | setStep (n : ℕ) {as : List (HookAct K)} (h : StartsBare as) : StartsBare (.setStep n :: as)
  | disarm {as : List (HookAct K)} (h : StartsBare as) : StartsBare (.setTimerArmed false :: as)
  | create (as : List (HookAct K)) : StartsBare (.createPlane :: as)

theorem StartsBare.take {as : List (HookAct K)} (h : StartsBare as) (stop : ℕ) :
    StartsBare (as.take stop) := by
  induction h generalizing stop with
  | nil => exact (List.take_nil (i := stop)).symm ▸ .nil
  | setStep n h ih =>
      cases stop with
      | zero => exact .nil
      | succ stop => exact .setStep n (ih stop)
  | disarm h ih =>
      cases stop with
      | zero => exact .nil
      | succ stop => exact .disarm (ih stop)
  | create as =>
      cases stop with
      | zero => exact .nil
      | succ stop => exact .create _

/-- From `s` the actions lead to `s₁`: they do to the view what they mean, from the view of `s`, or, where
    they create the plane, from that view with the new plane's gate. -/
structure LeadsTo (s : ProbeHost K) (as : List (HookAct K)) (s₁ : ProbeHost K) : Prop where
  laid : ∀ p, s₁.host.plane = some p → p.Laid
  unborn : s₁.host.plane = none →
    s₁.host.plugin.pending = none ∧ s₁.host.plugin.timerArmed = false
  view : ∃ v : ProbeView K, v.Ok ∧ v.armed = s.host.plugin.timerArmed ∧
    v.pending = s.host.plugin.pending ∧ v.binding = s.host.plugin.binding ∧
    s₁.view = as.foldl ProbeView.act v

theorem leadsTo_of_plane (hp : s.host.plane = some p) (hlaid : p.Laid) (hok : s.view.Ok)
    {as : List (HookAct K)} (hrun : s.acts cfg as = some s₁) : s.LeadsTo as s₁ := by
  obtain ⟨p₁, hp₁, hlaid₁, hview₁⟩ := view_acts hlaid hp hrun
  refine ⟨fun q hq => ?_, fun hnone => absurd (hp₁.symm.trans hnone) (by simp), s.view, hok, rfl, rfl,
    rfl, hview₁⟩
  rw [hp₁] at hq
  cases hq
  exact hlaid₁

theorem leadsTo_of_bare (halloc : cfg.AllocOk) {as : List (HookAct K)} (hbare : StartsBare as)
    (hp : s.host.plane = none) (hs : s.Ok) (hrun : s.acts cfg as = some s₁) : s.LeadsTo as s₁ := by
  obtain ⟨hpending, hdisarmed⟩ := hs.unborn hp
  induction hbare generalizing s with
  | nil =>
      cases hrun
      exact ⟨hs.laid, hs.unborn, _, hs.view, rfl, rfl, rfl, rfl⟩
  | setStep n h ih =>
      obtain ⟨s₂, hact, hrest⟩ := acts_cons_iff.1 hrun
      cases hact
      have hlead := ih (s := ⟨⟨{ s.host.plugin with step := n }, s.host.plane⟩, s.mem, s.book⟩) hp
        ⟨hs.laid, hs.unborn, hs.view⟩ hrest hpending hdisarmed
      exact ⟨hlead.laid, hlead.unborn, hlead.view⟩
  | @disarm as h ih =>
      obtain ⟨s₂, hact, hrest⟩ := acts_cons_iff.1 hrun
      cases hact
      have hview : view ⟨⟨{ s.host.plugin with timerArmed := false }, s.host.plane⟩, s.mem, s.book⟩
          = s.view := by
        rw [view, view, hdisarmed]
        rfl
      obtain ⟨hlaid₁, hunborn₁, v, hv, harmed, hpend, hbind, hview₁⟩ := ih (s := ⟨⟨{ s.host.plugin with
        timerArmed := false }, s.host.plane⟩, s.mem, s.book⟩) hp
        ⟨hs.laid, fun hnone => ⟨hpending, rfl⟩, hview ▸ hs.view⟩ hrest hpending rfl
      refine ⟨hlaid₁, hunborn₁, v, hv, harmed.trans hdisarmed.symm, hpend, hbind, ?_⟩
      have hsame : v.act (.setTimerArmed false) = v :=
        ProbeView.ext harmed.symm rfl rfl rfl rfl rfl
      rw [hview₁, List.foldl_cons, hsame]
  | create as =>
      obtain ⟨s₂, hact, hrest⟩ := acts_cons_iff.1 hrun
      obtain ⟨⟨h', w⟩, hhost, rfl⟩ := Option.map_eq_some_iff.1 hact
      simp only [Host.act, hp] at hhost
      obtain ⟨⟨p, w'⟩, hcreate, heq⟩ := Option.map_eq_some_iff.1 hhost
      cases heq
      have hlaid := (planeOf_create (m := s.mem) halloc hcreate).1.laid halloc
      have hok : (view ⟨{ s.host with plane := some p }, applyOps s.mem w', s.book⟩).Ok := by
        refine ⟨⟨fun b hb => ?_, hs.view.epochs, hs.view.folds⟩, hs.view.armed⟩
        exact absurd (hpending.symm.trans hb) (by simp)
      have hlead := leadsTo_of_plane (s := ⟨{ s.host with plane := some p }, applyOps s.mem w', s.book⟩)
        rfl hlaid hok hrest
      exact ⟨hlead.laid, hlead.unborn, hlead.view⟩

variable [Zero K] {b : Batch K} {stop : ℕ}

theorem startsBare_begin (st : PluginState K) : StartsBare (onBatchBegin cfg st b) := by
  unfold onBatchBegin
  refine .setStep _ ?_
  split
  · exact .disarm .nil
  split
  · exact .nil
  · exact .create _

/-! ## Histories keep the books straight -/

theorem Ok.begin (halloc : cfg.AllocOk) (hs : s.Ok)
    (hstop : Attributable s.host.plugin (s.beginActs cfg b stop))
    (hrun : s.acts cfg (s.beginActs cfg b stop) = some s₁) :
    (∀ p, s₁.host.plane = some p → p.Laid) ∧
      (s₁.host.plane = none → s₁.host.plugin.pending = none ∧ s₁.host.plugin.timerArmed = false) ∧
      s₁.view.Begun b.binding := by
  have hlead : s.LeadsTo (s.beginActs cfg b stop) s₁ := by
    cases hp : s.host.plane with
    | some p => exact leadsTo_of_plane hp (hs.laid p hp) hs.view hrun
    | none => exact leadsTo_of_bare halloc ((startsBare_begin s.host.plugin).take stop) hp hs hrun
  obtain ⟨v, hv, harmed, hpending, hbinding, hview⟩ := hlead.view
  refine ⟨hlead.laid, hlead.unborn, ?_⟩
  have hshape : BeginShape s.host.plugin.pending b.binding
      (probeActs (onBatchBegin cfg s.host.plugin b)) := beginShape
  rw [← hpending] at hshape
  have hpre : probeActs (s.beginActs cfg b stop) <+: probeActs (onBatchBegin cfg s.host.plugin b) :=
    (List.take_prefix _ _).filter _
  rw [hview, foldl_probeActs]
  exact hv.begin hshape hpre (mayStop_of_attributable hstop harmed hbinding)

omit [Zero K] in
theorem Ok.launch (hs : s.Ok) (own : Option (Binding K)) : (s.launch own).Ok :=
  ⟨hs.laid, hs.unborn, hs.view.launch own⟩

theorem Ok.runBatch (halloc : cfg.AllocOk) (hs : s.Ok)
    (hstop : Attributable s.host.plugin (s.beginActs cfg b stop))
    (hrun : s.runBatch cfg b stop = some s') : s'.Ok := by
  obtain ⟨s₁, hbegin, hend⟩ := Option.bind_eq_some_iff.1 hrun
  obtain ⟨hlaid₁, hunborn₁, hbegun⟩ := hs.begin halloc hstop hbegin
  have hlaunched : (s₁.launch b.binding).view.Launched := hbegun.launch
  cases hp : s₁.host.plane with
  | none =>
      obtain ⟨hpending, hdisarmed⟩ := hunborn₁ hp
      simp only [ProbeHost.launch, hp, onBatchEnd, Option.isSome_none, Bool.not_false, if_true] at hend
      cases hend
      refine ⟨fun p hp' => absurd (hp.symm.trans hp') (by simp), fun _ => ⟨hpending, hdisarmed⟩,
        ⟨hlaunched.toSound, fun harmed => ?_⟩⟩
      exact absurd (hdisarmed.symm.trans harmed) Bool.false_ne_true
  | some p =>
      have hborn : (s₁.launch b.binding).host.plane.isSome = true := by
        rw [ProbeHost.launch, hp]
        rfl
      obtain ⟨p', hp', hlaid', hview'⟩ := view_acts (s := s₁.launch b.binding) (hlaid₁ p hp) hp hend
      rw [foldl_probeActs, hborn, probeActs_onBatchEnd] at hview'
      refine ⟨fun q hq => ?_, fun hnone => absurd (hp'.symm.trans hnone) (by simp), ?_⟩
      · rw [hp'] at hq
        cases hq
        exact hlaid'
      · rw [hview']
        exact hlaunched.finish

end ProbeHost

/-- **Probe attribution over host histories.** In every history whose begin hooks stop where they may, no
    probe's rows are folded twice, and what is folded is one batch's rows, under the binding of the very
    batch that was launched with the timer on. -/
theorem probes_attributed [Zero K] (cfg : PluginConfig K) (halloc : cfg.AllocOk) (m : ByteMem)
    (R : ℤ) (s : ProbeHost K)
    (hrun : Reaches (ProbeHost.Passes cfg fun s b stop =>
      Attributable s.host.plugin (s.beginActs cfg b stop)) (.boot m R) s) :
    s.book.Attributed := by
  have hok : s.Ok := by
    refine hrun.invariant (fun s s' hs hstep => ?_) (.boot m R)
    cases hstep with
    | skipped b => exact hs.launch b.binding
    | hooked b stop hstop hrun => exact hs.runBatch halloc hstop hrun
  exact hok.view.folds

/-- A probe of one request, folded at the next batch. -/
theorem probes_attributed_first : ∃ s : ProbeHost ℕ,
    Reaches (ProbeHost.Passes planConfig fun s b stop =>
      Attributable s.host.plugin (s.beginActs planConfig b stop)) (.boot ByteMem.zeroed 0) s ∧
      s.book.folds.length = 1 ∧ s.book.Attributed := by
  have hsome : (((ProbeHost.boot ByteMem.zeroed 0).runBatch planConfig (unsplitBatch [1]) 20).bind
      fun s => (s.runBatch planConfig (unsplitBatch [1, 2]) 20).map fun s' =>
        (decide (Attributable s.host.plugin (s.beginActs planConfig (unsplitBatch [1, 2]) 20)),
          s'.book.folds.length)) = some (true, 1) := by
    decide +kernel
  obtain ⟨s₁, hs₁, hrest⟩ := Option.bind_eq_some_iff.1 hsome
  obtain ⟨s₂, hs₂, heq⟩ := Option.map_eq_some_iff.1 hrest
  obtain ⟨hok, hfolds⟩ := Prod.mk.inj heq
  have hrun : Reaches (ProbeHost.Passes planConfig fun s b stop =>
      Attributable s.host.plugin (s.beginActs planConfig b stop)) (.boot ByteMem.zeroed 0) s₂ :=
    (Relation.ReflTransGen.single (.hooked _ 20 (by decide) hs₁)).tail
      (.hooked _ 20 (of_decide_eq_true hok) hs₂)
  exact ⟨s₂, hrun, hfolds, probes_attributed planConfig planConfig_allocOk ByteMem.zeroed 0 s₂ hrun⟩

/-- No requests, and the tile map of an older plan. -/
def staleMapBatch : Batch ℕ where
  reqs := some []
  tileToReq := some [0]

/-- Behind a probe comes that batch: its hook folds the probe and raises at the tile costs, and the end
    hook queues the probe's binding again. At the third batch the same rows are folded once more. -/
theorem probe_folded_twice : ∃ s : ProbeHost ℕ,
    Reaches (ProbeHost.Passes planConfig fun _ _ _ => True) (.boot ByteMem.zeroed 0) s ∧
      ¬ s.book.Attributed := by
  have hsome : (((ProbeHost.boot ByteMem.zeroed 0).runBatch planConfig (unsplitBatch [1]) 20).bind
      fun s => (s.runBatch planConfig staleMapBatch 5).bind fun s =>
        (s.runBatch planConfig (unsplitBatch [1]) 20).map fun s => decide s.book.Attributed)
          = some false := by
    decide +kernel
  obtain ⟨s₁, hs₁, hrest⟩ := Option.bind_eq_some_iff.1 hsome
  obtain ⟨s₂, hs₂, hrest⟩ := Option.bind_eq_some_iff.1 hrest
  obtain ⟨s₃, hs₃, hbad⟩ := Option.map_eq_some_iff.1 hrest
  refine ⟨s₃, ?_, of_decide_eq_false hbad⟩
  exact ((Relation.ReflTransGen.single (.hooked _ 20 trivial hs₁)).tail
    (.hooked _ 5 trivial hs₂)).tail (.hooked _ 20 trivial hs₃)

end SchedPass
