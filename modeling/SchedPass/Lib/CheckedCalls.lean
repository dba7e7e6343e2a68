import Mathlib.Data.List.Basic

set_option autoImplicit false

/-! # Chains of fallible calls

A procedure issues calls one after the other and returns `false` at the first that fails. A failed
call has no effect of its own, but what the procedure does ahead of it has happened. The procedure
leaves the state behind some prefix of its calls, and returns `true` exactly when the prefix is the
whole chain (`runCalls_cases`). -/

universe u

/-- A call: what the caller does just ahead of it, and the call's effect when it succeeds. -/
structure CheckedCall (σ : Type u) where
  before : σ → σ := id
  effect : σ → σ

variable {σ : Type u}

/-- A call that succeeds. -/
def CheckedCall.run (c : CheckedCall σ) (s : σ) : σ := c.effect (c.before s)

/-- Run a chain, whose `i`-th call succeeds iff `ok i`. -/
def runCalls (ok : ℕ → Bool) : List (CheckedCall σ) → σ → Bool × σ
  | [], s => (true, s)
  | c :: cs, s => if ok 0 then runCalls (fun i => ok (i + 1)) cs (c.run s) else (false, c.before s)

/-- The state behind calls that all succeed. -/
def runAll (cs : List (CheckedCall σ)) (s : σ) : σ := cs.foldl (fun s c => c.run s) s

variable {ok : ℕ → Bool} {cs cs' : List (CheckedCall σ)} {s : σ}

theorem runCalls_of_ok (h : ∀ i < cs.length, ok i = true) : runCalls ok cs s = (true, runAll cs s) := by
  induction cs generalizing ok s with
  | nil => rfl
  | cons c cs ih =>
      have h0 : ok 0 = true := h 0 (Nat.zero_lt_succ _)
      rw [runCalls, if_pos h0, ih fun i hi => h (i + 1) (Nat.succ_lt_succ hi)]
      rfl

theorem runCalls_append_of_ok (h : ∀ i < cs.length, ok i = true) :
    runCalls ok (cs ++ cs') s = runCalls (fun i => ok (i + cs.length)) cs' (runAll cs s) := by
  induction cs generalizing ok s with
  | nil => rfl
  | cons c cs ih =>
      have h0 : ok 0 = true := h 0 (Nat.zero_lt_succ _)
      rw [List.cons_append, runCalls, if_pos h0, ih fun i hi => h (i + 1) (Nat.succ_lt_succ hi)]
      rfl

/-- **A chain returns true behind all of its calls, or false behind a proper prefix.** -/
theorem runCalls_cases (ok : ℕ → Bool) (cs : List (CheckedCall σ)) (s : σ) :
    (runCalls ok cs s = (true, runAll cs s) ∧ ∀ i < cs.length, ok i = true) ∨
    ∃ pre c post, cs = pre ++ c :: post ∧ (∀ i < pre.length, ok i = true) ∧ ok pre.length = false ∧
      runCalls ok cs s = (false, c.before (runAll pre s)) := by
  induction cs generalizing ok s with
  | nil => exact Or.inl ⟨rfl, fun i hi => absurd hi (Nat.not_lt_zero i)⟩
  | cons c cs ih =>
      cases h0 : ok 0 with
      | false => exact Or.inr ⟨[], c, cs, rfl, by simp, h0, by simp [runCalls, h0, runAll]⟩
      | true =>
          have hrun : runCalls ok (c :: cs) s = runCalls (fun i => ok (i + 1)) cs (c.run s) := by
            rw [runCalls, if_pos h0]
          rcases ih (fun i => ok (i + 1)) (c.run s) with ⟨hall, hok⟩ | ⟨pre, d, post, hcs, hpre, hd, hr⟩
          · refine Or.inl ⟨hrun.trans hall, fun i hi => ?_⟩
            cases i with
            | zero => exact h0
            | succ i => exact hok i (Nat.lt_of_succ_lt_succ hi)
          · refine Or.inr ⟨c :: pre, d, post, by rw [hcs]; rfl, fun i hi => ?_, hd, hrun.trans hr⟩
            cases i with
            | zero => exact h0
            | succ i => exact hpre i (Nat.lt_of_succ_lt_succ hi)

theorem runCalls_append_of_false (h : (runCalls ok cs s).1 = false) :
    runCalls ok (cs ++ cs') s = runCalls ok cs s := by
  induction cs generalizing ok s with
  | nil => exact absurd h Bool.noConfusion
  | cons c cs ih =>
      rw [List.cons_append]
      simp only [runCalls] at h ⊢
      split
      · next h0 => exact ih (by rwa [if_pos h0] at h)
      · rfl

/-- A chain that fails leaves the state ahead of the call that failed. -/
theorem runCalls_false (h : ¬ ∀ i < cs.length, ok i = true) :
    ∃ k, ∃ hk : k < cs.length, ok k = false ∧
      runCalls ok cs s = (false, cs[k].before (runAll (cs.take k) s)) := by
  rcases runCalls_cases ok cs s with ⟨-, hall⟩ | ⟨pre, c, post, hcs, -, hc, hr⟩
  · exact absurd hall h
  · subst hcs
    exact ⟨pre.length, by simp, hc, by simpa using hr⟩

theorem runCalls_true (h : (runCalls ok cs s).1 = true) : (runCalls ok cs s).2 = runAll cs s := by
  rcases runCalls_cases ok cs s with ⟨hrun, -⟩ | ⟨pre, c, post, -, -, -, hrun⟩
  · rw [hrun]
  · rw [hrun] at h
    exact absurd h Bool.false_ne_true

/-- What all that happens in a chain keeps holds behind it, however it ends. -/
theorem runCalls_invariant {P : σ → Prop} (hbefore : ∀ c ∈ cs, ∀ s, P s → P (c.before s))
    (heffect : ∀ c ∈ cs, ∀ s, P s → P (c.effect s)) (hs : P s) : P (runCalls ok cs s).2 := by
  induction cs generalizing ok s with
  | nil => exact hs
  | cons c cs ih =>
      have hc := hbefore c (List.mem_cons_self ..) s hs
      rw [runCalls]
      split
      · exact ih (fun d hd => hbefore d (List.mem_cons_of_mem c hd))
          (fun d hd => heffect d (List.mem_cons_of_mem c hd))
          (heffect c (List.mem_cons_self ..) _ hc)
      · exact hc
