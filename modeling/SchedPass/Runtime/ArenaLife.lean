import Mathlib.Data.List.Perm.Subperm
import SchedPass.Lib.ByteMem
import SchedPass.Lib.CheckedCalls
import SchedPass.Plane.SchedPlane

set_option autoImplicit false

/-! # The life of the arena (`SchedArena`)

A process has one arena at a time. The constructor maps it, makes it known to CUDA and clears it; `close`
gives it back, and is registered to run at the exit. A constructor that raises behind the mapping gives
nothing back: its mapping stays for as long as the process runs, and later arenas are never where it lies.
Nothing else is lost (`arena_life`). -/

namespace SchedPass

/-! ## The code -/

/-- Two arenas' mappings do not overlap. -/
def Apart (b c : ℕ) : Prop := b + arenaBytes ≤ c ∨ c + arenaBytes ≤ b

instance (b c : ℕ) : Decidable (Apart b c) := inferInstanceAs (Decidable (_ ∨ _))

/-- What the system answers a constructor. `mmap` is given the mappings there are and the address, if any,
    that is asked for without replacing a mapping; it answers with a free place that is not null. -/
structure Answers where
  mmap : List ℕ → Option ℕ → Option ℕ
  mmap_pos : ∀ mapped hint b, mmap mapped hint = some b → 0 < b
  mmap_apart : ∀ mapped hint b, mmap mapped hint = some b → ∀ c ∈ mapped, Apart b c
  /-- `cuCtxGetCurrent` gives a context. -/
  context : Bool
  /-- The `i`-th CUDA call succeeds. -/
  ok : ℕ → Bool
  /-- What `cuMemHostGetDevicePointer` gives. -/
  dptr : ℕ

/-- A constructed object. -/
structure Arena where
  /-- 0 behind `close`. -/
  base : ℕ
  canonical : Bool
  deriving DecidableEq

inductive ArenaError
  /-- "SchedArena already exists in this process" -/
  | alreadyExists
  /-- "mmap failed for the arena" -/
  | mmapFailed
  /-- "… failed: …", of a CUDA call -/
  | callFailed
  /-- "unified addressing violated"; for a null pointer the text cannot be made, which raises too -/
  | addressingViolated
  deriving DecidableEq

/-- A process: the arenas that have been constructed, `SchedArena._instance`, the mappings and which of them
    CUDA knows. The code does not keep `lost`, the mappings that a failed constructor has left behind. -/
structure ArenaProcess where
  arenas : List Arena := []
  inst : Option ℕ := none
  mapped : List ℕ := []
  registered : List ℕ := []
  mem : ByteMem := ByteMem.zeroed
  lost : List ℕ := []

namespace ArenaProcess

/-- The address that the constructor asks for. -/
def requested (SCHED_VA_BASE : ℕ) (va_base : Option ℕ) : ℕ :=
  if SCHED_VA_BASE ≠ 0 then SCHED_VA_BASE else va_base.getD 0x5C0000000000

/-- The place of the arena: where it is asked for, or else anywhere. A mapping in another place is given
    back at once. -/
def place (a : Answers) (want : ℕ) (s : ArenaProcess) : Option ℕ :=
  if a.mmap s.mapped (some want) = some want then some want
  else a.mmap s.mapped none

/-- CUDA knows the mapping. -/
def pin (base : ℕ) (s : ArenaProcess) : ArenaProcess := { s with registered := base :: s.registered }

/-- The CUDA calls of the constructor. -/
def cudaCalls (context : Bool) (base : ℕ) : List (CheckedCall ArenaProcess) :=
  -- `cuInit`, `cuCtxGetCurrent`
  [ { effect := id }, { effect := id } ] ++
  -- `cuDeviceGet`, `cuDevicePrimaryCtxRetain`, `cuCtxSetCurrent`
  (if context then [] else [ { effect := id }, { effect := id }, { effect := id } ]) ++
  -- `cuMemHostRegister`, `cuMemHostGetDevicePointer`
  [ { effect := pin base }, { effect := id } ]

/-- The constructor raises with its mapping made. -/
def lose (base : ℕ) (s : ArenaProcess) : ArenaProcess := { s with lost := base :: s.lost }

/-- `SchedArena(…)`. -/
def construct (a : Answers) (want : ℕ) (s : ArenaProcess) : Except ArenaError Arena × ArenaProcess :=
  if s.inst.isSome then (.error .alreadyExists, s)
  else
    match place a want s with
    | none => (.error .mmapFailed, s)
    | some base =>
        let (done, s) := runCalls a.ok (cudaCalls a.context base) { s with mapped := base :: s.mapped }
        if !done then (.error .callFailed, s.lose base)
        else if a.dptr ≠ base then (.error .addressingViolated, s.lose base)
        else
          let arena : Arena := { base := base, canonical := base == want }
          (.ok arena,
            { s with
              mem := fun b => if base ≤ b ∧ b < base + arenaBytes then 0 else s.mem b
              inst := some s.arenas.length
              arenas := s.arenas ++ [arena] })

/-- `close` of the `i`-th arena. -/
def close (i : ℕ) (s : ArenaProcess) : ArenaProcess :=
  match s.arenas[i]? with
  | none => s
  | some arena =>
      if arena.base ≠ 0 ∧ s.inst = some i then
        { s with
          registered := s.registered.erase arena.base
          mapped := s.mapped.erase arena.base
          arenas := s.arenas.set i { arena with base := 0 }
          inst := none }
      else s

/-- The exit: the arenas are closed, the last one first. -/
def exit (s : ArenaProcess) : ArenaProcess :=
  (List.range s.arenas.length).reverse.foldl (fun s i => s.close i) s

inductive Call
  | construct (a : Answers) (SCHED_VA_BASE : ℕ) (va_base : Option ℕ)
  | close (i : ℕ)

def exec (s : ArenaProcess) : Call → ArenaProcess
  | .construct a SCHED_VA_BASE va_base => (s.construct a (requested SCHED_VA_BASE va_base)).2
  | .close i => s.close i

def run (calls : List Call) : ArenaProcess := calls.foldl exec {}

/-! ## Who owns the mappings -/

/-- The base of the arena that is open. -/
def openBase (s : ArenaProcess) : Option ℕ := s.inst.bind fun i => s.arenas[i]?.map Arena.base

/-- At most one arena is open, and the mappings are its own and the lost ones, which do not overlap. CUDA
    knows the open one and none that is not mapped. -/
structure Owned (s : ArenaProcess) : Prop where
  inst_lt : ∀ i, s.inst = some i → i < s.arenas.length
  single : ∀ i arena, s.arenas[i]? = some arena → (arena.base ≠ 0 ↔ s.inst = some i)
  mapped : s.mapped.Perm (s.openBase.toList ++ s.lost)
  registered : ∃ known, known.Subperm s.lost ∧ s.registered.Perm (s.openBase.toList ++ known)
  apart : s.mapped.Pairwise Apart

variable {s s' : ArenaProcess} {a : Answers} {want base i : ℕ}

theorem openBase_of_none (h : s.inst = none) : s.openBase = none := by rw [openBase, h]; rfl

theorem openBase_of_some (arena : Arena) (h : s.inst = some i) (harena : s.arenas[i]? = some arena) :
    s.openBase = some arena.base := by
  rw [openBase, h, Option.bind_some, harena]
  rfl

theorem runCalls_cudaCalls (ok : ℕ → Bool) (context : Bool) (base : ℕ) (s : ArenaProcess) :
    runCalls ok (cudaCalls context base) s = (true, s.pin base) ∨
      ∃ s', runCalls ok (cudaCalls context base) s = (false, s') ∧ (s' = s ∨ s' = s.pin base) := by
  cases context <;> simp only [cudaCalls, runCalls, CheckedCall.run, List.cons_append,
    List.nil_append, if_true, if_false, Bool.false_eq_true, id] <;> split_ifs <;> simp

theorem place_apart (h : place a want s = some base) : 0 < base ∧ ∀ c ∈ s.mapped, Apart base c := by
  unfold place at h
  split_ifs at h with hwant
  · obtain rfl := Option.some_inj.1 h
    exact ⟨a.mmap_pos _ _ _ hwant, a.mmap_apart _ _ _ hwant⟩
  · exact ⟨a.mmap_pos _ _ _ h, a.mmap_apart _ _ _ h⟩

/-- **What a constructor does**: nothing, or it loses its mapping, or it opens the arena. -/
theorem construct_cases (a : Answers) (want : ℕ) (s : ArenaProcess) :
    (∃ e, construct a want s = (.error e, s)) ∨
    s.inst = none ∧ ∃ base, place a want s = some base ∧
      ((∃ e pinned, construct a want s = (.error e, pinned) ∧
          (pinned = { s with mapped := base :: s.mapped, lost := base :: s.lost } ∨
            pinned = { s with
              mapped := base :: s.mapped
              registered := base :: s.registered
              lost := base :: s.lost })) ∨
        a.dptr = base ∧ construct a want s =
          (.ok { base := base, canonical := base == want },
            { s with
              mapped := base :: s.mapped
              registered := base :: s.registered
              mem := fun b => if base ≤ b ∧ b < base + arenaBytes then 0 else s.mem b
              inst := some s.arenas.length
              arenas := s.arenas ++ [{ base := base, canonical := base == want }] })) := by
  by_cases hinst : s.inst = none
  swap
  · exact Or.inl ⟨.alreadyExists, if_pos (Option.isSome_iff_ne_none.2 hinst)⟩
  unfold construct
  rw [if_neg (by simp [hinst])]
  cases hplace : place a want s with
  | none => exact Or.inl ⟨.mmapFailed, rfl⟩
  | some base =>
      refine Or.inr ⟨hinst, base, rfl, ?_⟩
      dsimp only
      rcases runCalls_cudaCalls a.ok a.context base { s with mapped := base :: s.mapped } with
        hrun | ⟨s', hrun, hs'⟩
      · rw [hrun]
        by_cases hdptr : a.dptr = base
        · exact Or.inr ⟨hdptr, by simp [hdptr, pin]⟩
        · exact Or.inl ⟨.addressingViolated, _, if_pos hdptr, Or.inr rfl⟩
      · rw [hrun]
        refine Or.inl ⟨.callFailed, _, rfl, ?_⟩
        rcases hs' with rfl | rfl
        · exact Or.inl rfl
        · exact Or.inr rfl

/-! ## What every call keeps -/

theorem Owned.construct (h : s.Owned) (a : Answers) (want : ℕ) : (s.construct a want).2.Owned := by
  rcases construct_cases a want s with ⟨e, hrun⟩ | ⟨hinst, base, hplace, ⟨e, s', hrun, hs'⟩ | ⟨-, hrun⟩⟩
  · rw [hrun]
    exact h
  · rw [hrun]
    have hnone := openBase_of_none hinst
    obtain ⟨hpos, hapart⟩ := place_apart hplace
    have hmapped := h.mapped
    obtain ⟨known, hknown, hregistered⟩ := h.registered
    rw [hnone] at hmapped hregistered
    -- nothing is open, before and behind
    have hlose : (base :: s.mapped).Perm (s.openBase.toList ++ base :: s.lost) := by
      rw [hnone]
      exact hmapped.cons base
    rcases hs' with rfl | rfl
    · refine ⟨h.inst_lt, h.single, hlose, ⟨known, ?_, ?_⟩, List.pairwise_cons.2 ⟨hapart, h.apart⟩⟩
      · exact hknown.trans (List.sublist_cons_self base s.lost).subperm
      · show s.registered.Perm (s.openBase.toList ++ known)
        rw [hnone]
        exact hregistered
    · refine ⟨h.inst_lt, h.single, hlose, ⟨base :: known, ?_, ?_⟩,
        List.pairwise_cons.2 ⟨hapart, h.apart⟩⟩
      · exact (List.subperm_cons base).2 hknown
      · show (base :: s.registered).Perm (s.openBase.toList ++ base :: known)
        rw [hnone]
        exact hregistered.cons base
  · rw [hrun]
    obtain ⟨hpos, hapart⟩ := place_apart hplace
    have hmapped := h.mapped
    obtain ⟨known, hknown, hregistered⟩ := h.registered
    rw [openBase_of_none hinst] at hmapped hregistered
    have hopen : ∀ {t : ArenaProcess}, t.inst = some s.arenas.length →
        t.arenas = s.arenas ++ [{ base := base, canonical := base == want }] →
          t.openBase = some base := by
      intro t ht harenas
      refine openBase_of_some { base := base, canonical := base == want } ht ?_
      rw [harenas, List.getElem?_append_right le_rfl, Nat.sub_self]
      rfl
    refine ⟨?_, ?_, ?_, ⟨known, hknown, ?_⟩, List.pairwise_cons.2 ⟨hapart, h.apart⟩⟩
    · rintro i ⟨⟩
      simp
    · intro i arena harena
      rcases lt_or_ge i s.arenas.length with hi | hi
      · rw [List.getElem?_append_left hi] at harena
        have hclosed : arena.base = 0 := by
          by_contra hne
          have := (h.single i arena harena).1 hne
          rw [hinst] at this
          cases this
        simpa [hclosed] using (Nat.ne_of_lt hi).symm
      · rw [List.getElem?_append_right hi] at harena
        obtain ⟨hi', rfl⟩ : i = s.arenas.length ∧
            arena = { base := base, canonical := base == want } := by
          rw [List.getElem?_eq_some_iff] at harena
          obtain ⟨hlt, rfl⟩ := harena
          simp at hlt
          exact ⟨by omega, by simp⟩
        subst hi'
        simpa using hpos.ne'
    · rw [hopen rfl rfl]
      exact hmapped.cons base
    · rw [hopen rfl rfl]
      exact hregistered.cons base

/-- What `close` does: nothing, or it closes the open arena. -/
theorem close_cases (i : ℕ) (s : ArenaProcess) : s.close i = s ∨
    ∃ arena, s.arenas[i]? = some arena ∧ arena.base ≠ 0 ∧ s.inst = some i ∧ s.close i =
      { s with
        registered := s.registered.erase arena.base
        mapped := s.mapped.erase arena.base
        arenas := s.arenas.set i { arena with base := 0 }
        inst := none } := by
  unfold close
  cases harena : s.arenas[i]? with
  | none => exact Or.inl rfl
  | some arena =>
      dsimp only
      split_ifs with hopen
      · exact Or.inr ⟨arena, rfl, hopen.1, hopen.2, rfl⟩
      · exact Or.inl rfl

theorem Owned.close (h : s.Owned) (i : ℕ) : (s.close i).Owned := by
  rcases close_cases i s with hrun | ⟨arena, harena, hbase, hinst, hrun⟩
  · rw [hrun]
    exact h
  · have hmapped := h.mapped
    obtain ⟨known, hknown, hregistered⟩ := h.registered
    rw [openBase_of_some arena hinst harena] at hmapped hregistered
    have herase : ∀ {l rest : List ℕ}, l.Perm ((some arena.base).toList ++ rest) →
        (l.erase arena.base).Perm rest := by
      intro l rest hl
      simpa using hl.erase arena.base
    rw [hrun]
    refine ⟨nofun, fun j other hother => ?_, herase hmapped, ⟨known, hknown, herase hregistered⟩,
      h.apart.sublist List.erase_sublist⟩
    refine iff_of_false (not_not.2 ?_) nofun
    rw [List.getElem?_set] at hother
    split_ifs at hother with hij hlt
    · rw [← Option.some_inj.1 hother]
    · by_contra hne
      have hj := (h.single j other hother).1 hne
      exact hij (Option.some_inj.1 (hinst.symm.trans hj))

theorem Owned.run (calls : List Call) : (run calls).Owned := by
  have hstart : ({} : ArenaProcess).Owned :=
    ⟨nofun, by simp, List.Perm.refl _, ⟨[], List.Subperm.refl [], List.Perm.refl _⟩, List.Pairwise.nil⟩
  unfold ArenaProcess.run
  generalize ({} : ArenaProcess) = s at hstart
  induction calls generalizing s with
  | nil => exact hstart
  | cons c calls ih =>
      refine ih (s.exec c) ?_
      cases c with
      | construct a SCHED_VA_BASE va_base => exact hstart.construct a _
      | close i => exact hstart.close i

/-! ## The exit -/

theorem Owned.closeAll (h : s.Owned) (is : List ℕ) (his : ∀ i, s.inst = some i → i ∈ is) :
    (is.foldl (fun s i => s.close i) s).Owned ∧
      (is.foldl (fun s i => s.close i) s).inst = none ∧
      (is.foldl (fun s i => s.close i) s).lost = s.lost := by
  induction is generalizing s with
  | nil =>
      refine ⟨h, ?_, rfl⟩
      cases hinst : s.inst with
      | none => exact hinst
      | some i => cases his i hinst
  | cons i is ih =>
      have hnext : (∀ j, (s.close i).inst = some j → j ∈ is) ∧ (s.close i).lost = s.lost := by
        rcases close_cases i s with hrun | ⟨arena, harena, hbase, hinst, hrun⟩
        · refine ⟨fun j hj => ?_, by rw [hrun]⟩
          rw [hrun] at hj
          rcases List.mem_cons.1 (his j hj) with rfl | hmem
          · -- an open arena does get closed
            obtain ⟨arena, harena⟩ : ∃ arena, s.arenas[j]? = some arena :=
              ⟨_, List.getElem?_eq_getElem (h.inst_lt j hj)⟩
            have hbase := (h.single j arena harena).2 hj
            have hclosed : (s.close j).inst = none := by
              unfold ArenaProcess.close
              rw [harena]
              exact congrArg inst (if_pos ⟨hbase, hj⟩)
            rw [hrun, hj] at hclosed
            cases hclosed
          · exact hmem
        · rw [hrun]
          exact ⟨nofun, rfl⟩
      obtain ⟨howned, hinst, hlost⟩ := ih (h.close i) hnext.1
      exact ⟨howned, hinst, hlost.trans hnext.2⟩

/-- **The life of the arena.** In every run of constructions and closings, whatever the system answers: at
    most one arena is open; the mappings are its own and those that failed constructors have lost, and they
    do not overlap; CUDA knows it. At the exit everything is given back but what was lost. An arena that can
    be opened is clear and known to the device by its own address, and where a mapping was lost it never
    lies. -/
theorem arena_life (calls : List Call) :
    (run calls).Owned ∧ (run calls).exit.Owned ∧ (run calls).exit.inst = none ∧
      (run calls).exit.mapped.Perm (run calls).lost ∧
      ∀ a want arena s', (run calls).construct a want = (.ok arena, s') → (run calls).inst = none ∧
        s'.openBase = some arena.base ∧ a.dptr = arena.base ∧
        (arena.canonical = true ↔ arena.base = want) ∧
        (∀ b, arena.base ≤ b → b < arena.base + arenaBytes → s'.mem b = 0) ∧
        ∀ c ∈ (run calls).lost, Apart arena.base c := by
  have howned := Owned.run calls
  generalize run calls = s at howned
  obtain ⟨hexit, hinst, hlost⟩ := howned.closeAll (List.range s.arenas.length).reverse fun i hi =>
    List.mem_reverse.2 (List.mem_range.2 (howned.inst_lt i hi))
  refine ⟨howned, hexit, hinst, ?_, fun a want arena s' hrun => ?_⟩
  · have hmapped := hexit.mapped
    rw [openBase_of_none hinst, hlost] at hmapped
    exact hmapped
  · rcases construct_cases a want s with ⟨e, h⟩ | ⟨hnone, base, hplace, ⟨e, s'', h, -⟩ | ⟨hdptr, h⟩⟩
    · rw [h] at hrun
      cases hrun
    · rw [h] at hrun
      cases hrun
    · rw [h] at hrun
      obtain ⟨harena, rfl⟩ := Prod.mk.inj hrun
      obtain rfl := Except.ok.inj harena
      refine ⟨hnone, ?_, hdptr, beq_iff_eq, fun b hle hlt => if_pos ⟨hle, hlt⟩, fun c hc => ?_⟩
      · refine openBase_of_some { base := base, canonical := base == want } rfl ?_
        rw [List.getElem?_append_right le_rfl, Nat.sub_self]
        rfl
      · exact (place_apart hplace).2 c (howned.mapped.mem_iff.2 (List.mem_append_right _ hc))

end ArenaProcess

/-! ## A system that takes the first place -/

/-- The first free place: the one asked for, or else the least multiple of the arena's size. -/
def firstFit (mapped : List ℕ) (hint : Option ℕ) : Option ℕ :=
  let places := match hint with
    | some want => [want]
    | none => (List.range (2 * mapped.length + 1)).map fun k => (k + 1) * arenaBytes
  places.find? fun b => decide (0 < b ∧ ∀ c ∈ mapped, Apart b c)

theorem firstFit_free {mapped : List ℕ} {hint : Option ℕ} {b : ℕ} (h : firstFit mapped hint = some b) :
    0 < b ∧ ∀ c ∈ mapped, Apart b c := by
  have hfree := List.find?_some h
  simpa using hfree

/-- A process with a context whose CUDA calls succeed as `ok` says. -/
def Answers.firstFit (ok : ℕ → Bool) (dptr : ℕ) : Answers where
  mmap := SchedPass.firstFit
  mmap_pos _ _ _ h := (firstFit_free h).1
  mmap_apart _ _ _ h := (firstFit_free h).2
  context := true
  ok := ok
  dptr := dptr

namespace ArenaProcess

/-- The first constructor gets the address it asks for and loses it when CUDA gives no device pointer; the
    second one has to take another place. -/
theorem arena_life_lost :
    let refused : Answers := .firstFit (fun i => i != 3) 0
    let granted : Answers := .firstFit (fun _ => true) arenaBytes
    let s := run [.construct refused 0 none]
    s.lost = [0x5C0000000000] ∧
      ∃ s', s.construct granted 0x5C0000000000 = (.ok { base := arenaBytes, canonical := false }, s') ∧
        s' = run [.construct refused 0 none, .construct granted 0 none] ∧
        s'.openBase = some arenaBytes ∧ Apart arenaBytes 0x5C0000000000 ∧
        s'.exit.mapped.Perm [0x5C0000000000] := by
  intro refused granted s
  have hlost : s.lost = [0x5C0000000000] := by decide +kernel
  have hgranted : (s.construct granted 0x5C0000000000).1 = .ok { base := arenaBytes, canonical := false } := by
    decide +kernel
  obtain ⟨-, -, -, -, hopened⟩ := arena_life [.construct refused 0 none]
  obtain ⟨-, -, -, hexit, -⟩ := arena_life [.construct refused 0 none, .construct granted 0 none]
  obtain ⟨-, hopen, -, -, -, hapart⟩ :=
    hopened granted 0x5C0000000000 _ _ (Prod.ext hgranted rfl)
  have hlost' : (run [.construct refused 0 none, .construct granted 0 none]).lost = [0x5C0000000000] := by
    decide +kernel
  rw [hlost'] at hexit
  exact ⟨hlost, _, Prod.ext hgranted rfl, rfl, hopen, hapart _ (hlost ▸ List.mem_singleton_self _), hexit⟩

end ArenaProcess

end SchedPass
