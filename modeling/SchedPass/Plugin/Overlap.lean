import SchedPass.Plugin.TableInvariant
import SchedPass.Weave.Overlap

set_option autoImplicit false

/-! # The hooks' writes under a launch in flight

The host program of a `Flight` is what a list of hook calls writes. None of it touches the channel
word, so the quiet runs of `Weave/Overlap.lean` apply to a launch over the plugin's plane. A
same-size reinstall is not quiet: a block that reads after it may get a task that a block before it
already has. -/

namespace SchedPass

variable {K : Type} [Zero K]

/-- Hook calls one after the other: the host afterwards and their writes in program order. -/
def Host.calls (cfg : PluginConfig K) (h : Host K) : List (HookCall K) → Option (Host K × List MemOp)
  | [] => some (h, [])
  | c :: cs => do
      let (h₁, w₁) ← h.acts cfg (h.hook cfg c)
      let (h₂, w₂) ← h₁.calls cfg cs
      return (h₂, w₁ ++ w₂)

variable {cfg : PluginConfig K} {h h' : Host K} {p : SchedPlane} {w : List MemOp}

/-- The host has a plane of `p`'s layout. -/
def Host.HasPlane (h : Host K) (p : SchedPlane) : Prop := ∃ p', h.plane = some p' ∧ p.SameLayout p'

/-! ## The channel word -/

omit [Zero K] in
theorem act_sparesWord (hlaid : p.Laid) {d : ℕ} (hd : p.orderDev = some d) (hp : h.HasPlane p)
    {a : HookAct K} (hrun : h.act cfg a = some (h', w)) :
    h'.HasPlane p ∧ ∀ o ∈ w, SchedPlane.SparesWord (p.base + orderOff) o := by
  obtain ⟨p₁, hp₁, hsame⟩ := hp
  cases a with
  | plane op =>
      simp only [Host.act, hp₁, Option.bind_eq_bind, Option.bind_some, Option.bind_eq_some_iff] at hrun
      obtain ⟨⟨p', w'⟩, hexec, heq⟩ := hrun
      cases heq
      refine ⟨⟨p', rfl, hsame.trans (SchedPlane.sameLayout_exec hexec)⟩, ?_⟩
      rw [← hsame.base]
      exact SchedPlane.exec_sparesWord (hlaid.congr hsame) (hsame.orderDev.trans hd) hexec
  | createPlane =>
      simp only [Host.act, hp₁] at hrun
      cases hrun
      exact ⟨⟨p₁, hp₁, hsame⟩, by simp⟩
  | raise => exact absurd hrun (by simp [Host.act])
  | _ =>
      cases hrun
      exact ⟨⟨p₁, hp₁, hsame⟩, by simp⟩

omit [Zero K] in
theorem acts_sparesWord (hlaid : p.Laid) {d : ℕ} (hd : p.orderDev = some d) {as : List (HookAct K)}
    (hp : h.HasPlane p) (hrun : h.acts cfg as = some (h', w)) :
    h'.HasPlane p ∧ ∀ o ∈ w, SchedPlane.SparesWord (p.base + orderOff) o := by
  induction as generalizing h w with
  | nil =>
      cases hrun
      exact ⟨hp, by simp⟩
  | cons a as ih =>
      obtain ⟨h₁, w₁, w₂, ha, has, rfl⟩ := acts_cons hrun
      obtain ⟨hp₁, hspare₁⟩ := act_sparesWord hlaid hd hp ha
      obtain ⟨hp₂, hspare₂⟩ := ih hp₁ has
      refine ⟨hp₂, fun o ho => ?_⟩
      rcases List.mem_append.1 ho with ho | ho
      · exact hspare₁ o ho
      · exact hspare₂ o ho

theorem calls_sparesWord (hlaid : p.Laid) {d : ℕ} (hd : p.orderDev = some d)
    {cs : List (HookCall K)} (hp : h.HasPlane p) (hrun : h.calls cfg cs = some (h', w)) :
    ∀ o ∈ w, SchedPlane.SparesWord (p.base + orderOff) o := by
  induction cs generalizing h w with
  | nil =>
      cases hrun
      simp
  | cons c cs ih =>
      simp only [Host.calls, Option.bind_eq_bind, Option.bind_eq_some_iff] at hrun
      obtain ⟨⟨h₁, w₁⟩, hc, ⟨h₂, w₂⟩, hcs, heq⟩ := hrun
      cases heq
      obtain ⟨hp₁, hspare₁⟩ := acts_sparesWord hlaid hd hp hc
      intro o ho
      rcases List.mem_append.1 ho with ho | ho
      · exact hspare₁ o ho
      · exact ih hp₁ hcs o ho

/-! ## A launch under the hooks -/

/-- **Bijectivity under overlap.** A launch of `g` blocks over a plane whose table matches its stamp
    starts with the table in place; whatever hook calls the host makes meanwhile, a run in which no
    write changes what the blocks still have to read, and whose first read finds the table in place,
    ends in a bijection of the launch's tiles. -/
theorem overlap_permutesBelow (cfg : PluginConfig K) (halloc : cfg.AllocOk) (h : Host K)
    (m : ByteMem) (p : SchedPlane) (hp : h.plane = some p) (hof : PlaneOf cfg p m)
    (C : Config) (hC : p.Bakes C) (g : ℕ)
    (hmatch : TableMatches (p.view m).table p.N (p.view m).stamp g) :
    TableInPlace C p.slots g m ∧
      ∀ (cs : List (HookCall K)) (h' : Host K) (w : List MemOp), h.calls cfg cs = some (h', w) →
        ∀ s, Reaches (QuietStep C p.slots g) { mem := m, prog := w } s → s.Finished g →
          PermutesBelow s.task g := by
  have hbase : 0 < p.base := by
    rw [hof.base]
    exact halloc.base_pos
  have hpos : ∀ d ∈ p.orderDev, 0 < d := by
    rw [hof.orderDev]
    exact fun d hd => (halloc.order d hd).2.1
  obtain ⟨horder, hctrl⟩ := SchedPlane.slots_armed hbase
  refine ⟨hmatch.slots hC hbase hof.channel, fun cs h' w hcalls s hrun hdone => ?_⟩
  refine quietRun_permutesBelow horder hctrl (fun hind => ?_) hrun hdone
  refine ⟨hof.channel.channelSet hC hbase hpos hind, ?_⟩
  obtain ⟨d, hd⟩ := Option.isSome_iff_exists.1 (hC.orderIndirect ▸ hind)
  have horderBase : p.slots.taskOrder.base = p.base + orderOff :=
    RtSlot.base_baked (by simpa [orderOff] using hbase)
  rw [horderBase]
  exact calls_sparesWord (hof.laid halloc) hd ⟨p, hp, .refl p⟩ hcalls

/-! ## A same-size reinstall -/

/-- `planConfig` with the claim loop forced on: every planned step reinstalls the order. -/
def reinstallConfig : PluginConfig ℕ := { planConfig with clc := .on }

/-- A plane for 3 tasks that has published the order `[0, 1]` for 2 tiles. -/
def twoTilePlane : SchedPlane where
  N := 3
  base := 4096
  ctrlHost := ByteMem.zeroed.store ctrlOrderSizeOff (ByteMem.toBytes 4 2)

def twoTileHost : Host ℕ := ⟨{ step := 1, orderN := some 2, inflight := true }, some twoTilePlane⟩

/-- The memory behind `twoTilePlane`. -/
def twoTileMem : ByteMem := planeImage 4096 (4096 + ctrlOff) [0, 1] 2 2

/-- The plain weave compiled against `twoTilePlane`. -/
def twoTileKernel : Config := { maxTasks := 3 }

theorem twoTilePlane_planeOf : PlaneOf reinstallConfig twoTilePlane twoTileMem :=
  ⟨rfl, rfl, rfl, rfl, by decide, by simp [SchedPlane.ChannelOk, twoTilePlane]⟩

theorem twoTilePlane_bakes : twoTilePlane.Bakes twoTileKernel := ⟨rfl, rfl⟩

theorem twoTilePlane_matches : TableMatches (twoTilePlane.view twoTileMem).table twoTilePlane.N
    (twoTilePlane.view twoTileMem).stamp 2 := by decide +kernel

/-- The next batch of two tiles has its costs the other way round: the hook's first write stores the
    order `[1, 0]` over `[0, 1]`. -/
theorem reinstall_writes : ∃ h' w, twoTileHost.calls reinstallConfig
      [.begin (unsplitBatch [1, 2])] = some (h', ⟨false, 4096, [1, 0, 0, 0, 0, 0, 0, 0]⟩ :: w) := by
  have hhead : (twoTileHost.calls reinstallConfig [.begin (unsplitBatch [1, 2])]).map
      (fun r => r.2.head?) = some (some ⟨false, 4096, [1, 0, 0, 0, 0, 0, 0, 0]⟩) := by decide +kernel
  obtain ⟨⟨h', w⟩, hcalls, hw⟩ := Option.map_eq_some_iff.1 hhead
  obtain ⟨w', rfl⟩ := List.head?_eq_some_iff.1 hw
  exact ⟨h', w', hcalls⟩

/-- Before the store block 0 keeps its own index, after it block 1 maps to task 0. -/
theorem reinstall_tasks :
    emitRemap twoTileKernel twoTilePlane.slots twoTileMem 2 0 = 0 ∧
      emitRemap twoTileKernel twoTilePlane.slots
        (twoTileMem.store 4096 [1, 0, 0, 0, 0, 0, 0, 0]) 2 1 = 0 := by decide +kernel

/-- Either table is in place. -/
theorem reinstall_inPlace :
    TableInPlace twoTileKernel twoTilePlane.slots 2 twoTileMem ∧
      TableInPlace twoTileKernel twoTilePlane.slots 2
        (twoTileMem.store 4096 [1, 0, 0, 0, 0, 0, 0, 0]) := by decide +kernel

/-- Block 0 reads before the store of `[1, 0]` and block 1 after it: both run task 0. -/
theorem overlap_reinstall_duplicates : ∃ h' w s,
    PlaneOf reinstallConfig twoTilePlane twoTileMem ∧ twoTilePlane.Bakes twoTileKernel ∧
      TableMatches (twoTilePlane.view twoTileMem).table twoTilePlane.N
        (twoTilePlane.view twoTileMem).stamp 2 ∧
      twoTileHost.calls reinstallConfig [.begin (unsplitBatch [1, 2])] = some (h', w) ∧
      Reaches (FlightStep twoTileKernel twoTilePlane.slots 2) { mem := twoTileMem, prog := w } s ∧
      s.Finished 2 ∧ ¬ PermutesBelow s.task 2 := by
  obtain ⟨h', w, hcalls⟩ := reinstall_writes
  have horder : twoTilePlane.slots.taskOrder.Armed := (SchedPlane.slots_armed (by decide)).1
  obtain ⟨htask₀, htask₁⟩ := reinstall_tasks
  let s₀ : Flight :=
    { mem := twoTileMem, prog := ⟨false, 4096, [1, 0, 0, 0, 0, 0, 0, 0] ++ []⟩ :: w }
  let s₁ : Flight :=
    { mem := twoTileMem.store 4096 [1, 0, 0, 0, 0, 0, 0, 0], prog := ⟨false, 4096 + 8, []⟩ :: w,
      block := (s₀.setBlock 0 (.done 0)).block }
  have hread₀ : Reaches (FlightStep twoTileKernel twoTilePlane.slots 2) s₀
      (s₀.setBlock 0 (.done 0)) := by
    have h₀ := QuietStep.readTask (s := s₀) (p := 0) horder (by decide) rfl fun _ => reinstall_inPlace.1
    rw [htask₀] at h₀
    exact QuietStep.run h₀
  have hstore : FlightStep twoTileKernel twoTilePlane.slots 2 (s₀.setBlock 0 (.done 0)) s₁ :=
    .write (s := s₀.setBlock 0 (.done 0)) rfl
  have hread₁ : Reaches (FlightStep twoTileKernel twoTilePlane.slots 2) s₁
      (s₁.setBlock 1 (.done 0)) := by
    have h₁ := QuietStep.readTask (s := s₁) (p := 1) horder (by decide) rfl fun _ => reinstall_inPlace.2
    rw [htask₁] at h₁
    exact QuietStep.run h₁
  refine ⟨h', _, _, twoTilePlane_planeOf, twoTilePlane_bakes, twoTilePlane_matches, hcalls,
    (hread₀.tail hstore).trans hread₁, fun p hp => ?_, fun hperm => ?_⟩
  · obtain rfl | rfl : p = 0 ∨ p = 1 := by omega
    · exact ⟨0, rfl⟩
    · exact ⟨0, rfl⟩
  · exact absurd (hperm.inj (i := 0) (j := 1) (by decide) (by decide) rfl) (by decide)

/-- The new first entry lands between the blocks' reads: only block 1 has yet to read, and it finds its own
    entry and the stamp as they were. -/
theorem reinstall_quiet :
    emitRemap twoTileKernel twoTilePlane.slots (twoTileMem.store 4096 [1, 0, 0, 0]) 2 1 = 1 ∧
      orderSizeOk twoTilePlane.slots (twoTileMem.store 4096 [1, 0, 0, 0]) 2
        = orderSizeOk twoTilePlane.slots twoTileMem 2 ∧
      orderEntry twoTileKernel (twoTileMem.store 4096 [1, 0, 0, 0]) twoTilePlane.slots.taskOrder.base 1
        = orderEntry twoTileKernel twoTileMem twoTilePlane.slots.taskOrder.base 1 := by decide +kernel

/-- Block 0 reads its entry, the host overwrites that entry, and block 1 reads its own: the launch is a
    bijection, although the table never held one after the write. -/
theorem overlap_permutesBelow_between : ∃ h' w s,
    twoTileHost.calls reinstallConfig [.begin (unsplitBatch [1, 2])] = some (h', w) ∧
      Reaches (QuietStep twoTileKernel twoTilePlane.slots 2) { mem := twoTileMem, prog := w } s ∧
      s.Finished 2 ∧ s.mem = twoTileMem.store 4096 [1, 0, 0, 0] ∧ PermutesBelow s.task 2 := by
  obtain ⟨h', w, hcalls⟩ := reinstall_writes
  have horder : twoTilePlane.slots.taskOrder.Armed := (SchedPlane.slots_armed (by decide)).1
  obtain ⟨htask₁, hverdict, hentry⟩ := reinstall_quiet
  let s₀ : Flight :=
    { mem := twoTileMem, prog := ⟨false, 4096, [1, 0, 0, 0] ++ [0, 0, 0, 0]⟩ :: w }
  let s₁ : Flight :=
    { mem := twoTileMem.store 4096 [1, 0, 0, 0], prog := ⟨false, 4096 + 4, [0, 0, 0, 0]⟩ :: w,
      block := (s₀.setBlock 0 (.done 0)).block }
  have hread₀ : Reaches (QuietStep twoTileKernel twoTilePlane.slots 2) s₀ (s₀.setBlock 0 (.done 0)) := by
    have h₀ := QuietStep.readTask (s := s₀) (p := 0) horder (by decide) rfl fun _ => reinstall_inPlace.1
    rwa [reinstall_tasks.1] at h₀
  have hreading : (s₀.setBlock 0 (.done 0)).Reading twoTileKernel 2 := ⟨0, by decide, by decide, nofun⟩
  have hstore : QuietStep twoTileKernel twoTilePlane.slots 2 (s₀.setBlock 0 (.done 0)) s₁ := by
    refine ⟨.write (s := s₀.setBlock 0 (.done 0)) rfl, fun _ => ⟨fun _ => hverdict, ?_⟩, fun hfirst =>
      absurd hreading hfirst⟩
    intro _ p hp _ hunread
    obtain rfl | rfl : p = 0 ∨ p = 1 := by omega
    · cases hunread
    · exact hentry
  have hread₁ : Reaches (QuietStep twoTileKernel twoTilePlane.slots 2) s₁ (s₁.setBlock 1 (.done 1)) := by
    have h₁ := QuietStep.readTask (s := s₁) (p := 1) horder (by decide) rfl fun hfirst =>
      absurd hreading hfirst
    rwa [htask₁] at h₁
  have hrun := (hread₀.tail hstore).trans hread₁
  have hdone : (s₁.setBlock 1 (.done 1)).Finished 2 := by
    intro p hp
    obtain rfl | rfl : p = 0 ∨ p = 1 := by omega
    · exact ⟨0, rfl⟩
    · exact ⟨1, rfl⟩
  exact ⟨h', _, _, hcalls, hrun, hdone, rfl, (overlap_permutesBelow reinstallConfig
    ⟨by decide, by simp [reinstallConfig, planConfig], by simp [reinstallConfig, planConfig],
      by simp [reinstallConfig, planConfig]⟩ twoTileHost twoTileMem twoTilePlane rfl
    twoTilePlane_planeOf twoTileKernel twoTilePlane_bakes 2 twoTilePlane_matches).2 _ h' _ hcalls _ hrun
    hdone⟩

end SchedPass
