import Mathlib.Data.Finset.Card
import Mathlib.Data.Finset.Union
import Mathlib.Logic.Function.Iterate
import Mathlib.Logic.Relation

set_option autoImplicit false

/-! # Dominance and SSA availability

A control-flow graph has an entry and successors. `Avoids a b` says that control can arrive at `b`
without having completed `a`; its negation is strict dominance, which is transitive. A value is
`Available` at a point when it is defined earlier in the point's block or in a block that strictly
dominates it. Dominance is decided by growing the set of blocks that avoid `a` (`mem_avoidSet_iff`). -/

universe u v

/-- A control-flow graph over blocks `B`. -/
structure Cfg (B : Type u) where
  entry : B
  succ : B → List B

namespace Cfg

variable {B : Type u} {V : Type v} (G : Cfg B)

/-! ## Dominance -/

/-- Control can arrive at the block without having completed `a`. -/
inductive Avoids (a : B) : B → Prop
  | entry : Avoids a G.entry
  | step {b c : B} (h : Avoids a b) (hb : b ≠ a) (hc : c ∈ G.succ b) : Avoids a c

/-- Control never arrives at `b` before completing `a`. -/
def StrictDom (a b : B) : Prop := ¬ G.Avoids a b

def Reachable (b : B) : Prop := Relation.ReflTransGen (fun b c => c ∈ G.succ b) G.entry b

variable {G} {a b c : B}

/-- On the way to a reachable block, `a` is avoided up to the block or up to `a` itself. -/
theorem Reachable.avoids (h : G.Reachable b) (a : B) : G.Avoids a b ∨ G.Avoids a a := by
  induction h with
  | refl => exact Or.inl .entry
  | @tail b c _ hc ih =>
      by_cases hb : b = a
      · subst hb
        exact Or.inr (ih.elim id id)
      · exact ih.imp_left fun h => h.step hb hc

theorem Reachable.not_strictDom_self (h : G.Reachable b) : ¬ G.StrictDom b b := fun hdom =>
  hdom ((h.avoids b).elim id id)

theorem StrictDom.trans (hab : G.StrictDom a b) (hbc : G.StrictDom b c) : G.StrictDom a c := by
  intro hac
  refine hbc ?_
  induction hac with
  | entry => exact .entry
  | @step d c hd hda hc ih =>
      refine (ih fun h => hbc (h.step ?_ hc)).step ?_ hc
      all_goals
        rintro rfl
        exact hab hd

/-- The entry strictly dominates every other block. -/
theorem strictDom_entry (hb : b ≠ G.entry) : G.StrictDom G.entry b := by
  intro h
  refine hb ?_
  induction h with
  | entry => rfl
  | step _ hne _ ih => exact absurd (ih hne) hne

/-! ## Walks -/

/-- A walk that does not complete `a` carries on without having completed it. -/
theorem Avoids.walk {p : List B} (h : G.Avoids a b)
    (hwalk : (b :: (p ++ [c])).IsChain fun b c => c ∈ G.succ b) (hb : a ≠ b) (hp : a ∉ p) :
    G.Avoids a c := by
  induction p generalizing b with
  | nil =>
      rw [List.nil_append, List.isChain_cons_cons] at hwalk
      exact h.step hb.symm hwalk.1
  | cons d p ih =>
      rw [List.cons_append, List.isChain_cons_cons] at hwalk
      rw [List.mem_cons, not_or] at hp
      exact ih (h.step hb.symm hwalk.1) hwalk.2 hp.1 hp.2

theorem Reachable.walk {p : List B} (h : G.Reachable b)
    (hwalk : (b :: p).IsChain fun b c => c ∈ G.succ b) (hc : c ∈ b :: p) : G.Reachable c := by
  induction p generalizing b with
  | nil => exact List.mem_singleton.1 hc ▸ h
  | cons d p ih =>
      rw [List.isChain_cons_cons] at hwalk
      rcases List.mem_cons.1 hc with rfl | hc
      · exact h
      · exact ih (h.tail hwalk.1) hwalk.2 hc

/-- On a walk without repetition from a reachable block that dominates every block of the walk, no
    later block dominates an earlier one. -/
theorem not_strictDom_of_later {p q : List B} {x : B} (hx : G.Reachable x)
    (hdom : c ≠ x → G.StrictDom x c) (hwalk : (p ++ b :: q).IsChain fun b c => c ∈ G.succ b)
    (hhead : (p ++ b :: q).head? = some x) (hnodup : (p ++ b :: q).Nodup) (hc : c ∈ q) :
    ¬ G.StrictDom c b := by
  obtain ⟨-, hbq, hpq⟩ := List.nodup_append.1 hnodup
  have hcb : c ≠ b := fun h => (List.nodup_cons.1 hbq).1 (h ▸ hc)
  have hcp : c ∉ p := fun h => hpq c h c (List.mem_cons_of_mem b hc) rfl
  have hcx : c ≠ x := by
    rintro rfl
    cases p with
    | nil => exact hcb (Option.some.inj hhead).symm
    | cons d p => exact hcp (Option.some.inj hhead ▸ List.mem_cons_self ..)
  have hfirst : G.Avoids c x := by
    by_contra hnot
    exact hx.not_strictDom_self ((hdom hcx).trans hnot)
  refine not_not.2 ?_
  cases p with
  | nil =>
      rw [List.nil_append, List.head?_cons, Option.some.injEq] at hhead
      rwa [hhead]
  | cons d p =>
      obtain rfl := Option.some.inj hhead
      have hprefix : (d :: (p ++ [b])).IsChain fun b c => c ∈ G.succ b := by
        refine hwalk.prefix ⟨q, ?_⟩
        rw [List.cons_append, List.append_assoc, List.singleton_append, List.cons_append]
      exact hfirst.walk hprefix hcx fun h => hcp (List.mem_cons_of_mem d h)

/-! ## Availability -/

variable (G)

/-- The value is defined among `pre`, the definitions before the point in its block `b`, or in a block
    that strictly dominates `b`. -/
def Available (defs : B → List V) (b : B) (pre : List V) (x : V) : Prop :=
  x ∈ pre ∨ ∃ a, x ∈ defs a ∧ G.StrictDom a b

variable {G} {defs defs' : B → List V} {pre pre' : List V} {x : V}

theorem Available.mono (h : G.Available defs b pre x) (hdefs : ∀ a, x ∈ defs a → x ∈ defs' a)
    (hpre : x ∈ pre → x ∈ pre') : G.Available defs' b pre' x := by
  rcases h with h | ⟨a, ha, hdom⟩
  · exact Or.inl (hpre h)
  · exact Or.inr ⟨a, hdefs a ha, hdom⟩

/-- What is available at the start of a block is available at the end of its predecessors. -/
theorem Available.of_succ (h : G.Available defs c [] x) (hc : c ∈ G.succ b) :
    G.Available defs b (defs b) x := by
  rcases h with h | ⟨a, ha, hdom⟩
  · cases h
  · by_cases hba : b = a
    · subst hba
      exact Or.inl ha
    · exact Or.inr ⟨a, ha, fun havoid => hdom (havoid.step hba hc)⟩

/-- Nothing is available at the start of the entry. -/
theorem not_available_entry : ¬ G.Available defs G.entry [] x := by
  rintro (h | ⟨a, -, hdom⟩)
  · cases h
  · exact hdom .entry

/-- A value defined only in the reachable block `b`, and not before the point, is not available. -/
theorem not_available (hb : G.Reachable b) (honly : ∀ a, x ∈ defs a → a = b) (hpre : x ∉ pre) :
    ¬ G.Available defs b pre x := by
  rintro (h | ⟨a, ha, hdom⟩)
  · exact hpre h
  · rw [honly a ha] at hdom
    exact hb.not_strictDom_self hdom

/-! ## Splitting a block -/

section

variable (G) [DecidableEq B]

/-- `b` ends with a branch to `c`, which goes on to `t`, or to `t`, which goes on as `b` did. -/
def splitIf (b c t : B) : Cfg B where
  entry := G.entry
  succ := Function.update (Function.update (Function.update G.succ b [c, t]) c [t]) t (G.succ b)

variable {G} {nodes : Set B} {d t x : B}

/-- The names of the new blocks are new. -/
structure NewBlocks (G : Cfg B) (nodes : Set B) (b c t : B) : Prop where
  entry_mem : G.entry ∈ nodes
  succ_mem : ∀ a ∈ nodes, ∀ d ∈ G.succ a, d ∈ nodes
  mem : b ∈ nodes
  not_mem : c ∉ nodes
  not_mem' : t ∉ nodes
  ne : c ≠ t

theorem succ_splitIf_tail : (G.splitIf b c t).succ t = G.succ b := by
  simp only [splitIf, Function.update_self]

variable (h : NewBlocks G nodes b c t)

include h

theorem succ_splitIf_self : (G.splitIf b c t).succ b = [c, t] := by
  have hc : b ≠ c := fun hbc => h.not_mem (hbc ▸ h.mem)
  have ht : b ≠ t := fun hbt => h.not_mem' (hbt ▸ h.mem)
  simp only [splitIf, Function.update_of_ne ht, Function.update_of_ne hc, Function.update_self]

theorem succ_splitIf_then : (G.splitIf b c t).succ c = [t] := by
  simp only [splitIf, Function.update_of_ne h.ne, Function.update_self]

theorem succ_splitIf_of_ne (ha : a ∈ nodes) (hb : a ≠ b) : (G.splitIf b c t).succ a = G.succ a := by
  have hc : a ≠ c := fun hac => h.not_mem (hac ▸ ha)
  have ht : a ≠ t := fun hat => h.not_mem' (hat ▸ ha)
  simp only [splitIf, Function.update_of_ne ht, Function.update_of_ne hc, Function.update_of_ne hb]

/-- Without another block completed, control is where it would be, the new blocks being part of
    `b`. -/
theorem Avoids.of_splitIf (hx : (G.splitIf b c t).Avoids a x) (ha : a ≠ b) :
    ((x = c ∨ x = t) ∧ G.Avoids a b) ∨ (x ∈ nodes ∧ G.Avoids a x) := by
  induction hx with
  | entry => exact Or.inr ⟨h.entry_mem, .entry⟩
  | @step y z _ hya hz ih =>
      rcases ih with ⟨rfl | rfl, havoid⟩ | ⟨hy, havoid⟩
      · rw [succ_splitIf_then h, List.mem_singleton] at hz
        exact Or.inl ⟨Or.inr hz, havoid⟩
      · rw [succ_splitIf_tail] at hz
        exact Or.inr ⟨h.succ_mem b h.mem z hz, havoid.step ha.symm hz⟩
      · by_cases hyb : y = b
        · subst hyb
          rw [succ_splitIf_self h] at hz
          exact Or.inl ⟨by simpa using hz, havoid⟩
        · rw [succ_splitIf_of_ne h hy hyb] at hz
          exact Or.inr ⟨h.succ_mem y hy z hz, havoid.step hya hz⟩

/-- Before the rest of `b` is completed, control is where it would be before `b` is, the new blocks
    being part of `b`. -/
theorem Avoids.of_splitIf_tail (hx : (G.splitIf b c t).Avoids t x) :
    ((x = c ∨ x = t) ∧ G.Avoids b b) ∨ (x ∈ nodes ∧ G.Avoids b x) := by
  induction hx with
  | entry => exact Or.inr ⟨h.entry_mem, .entry⟩
  | @step y z _ hyt hz ih =>
      rcases ih with ⟨rfl | rfl, havoid⟩ | ⟨hy, havoid⟩
      · rw [succ_splitIf_then h, List.mem_singleton] at hz
        exact Or.inl ⟨Or.inr hz, havoid⟩
      · exact absurd rfl hyt
      · by_cases hyb : y = b
        · subst hyb
          rw [succ_splitIf_self h] at hz
          exact Or.inl ⟨by simpa using hz, havoid⟩
        · rw [succ_splitIf_of_ne h hy hyb] at hz
          exact Or.inr ⟨h.succ_mem y hy z hz, havoid.step hyb hz⟩

/-- Before what is left of `b` is completed, control is where it would be. -/
theorem Avoids.of_splitIf_self (hx : (G.splitIf b c t).Avoids b x) : x ∈ nodes ∧ G.Avoids b x := by
  induction hx with
  | entry => exact ⟨h.entry_mem, .entry⟩
  | @step y z _ hyb hz ih =>
      rw [succ_splitIf_of_ne h ih.1 hyb] at hz
      exact ⟨h.succ_mem y ih.1 z hz, ih.2.step hyb hz⟩

theorem StrictDom.splitIf (hd : d ∈ nodes) (hdom : G.StrictDom a d) :
    (G.splitIf b c t).StrictDom a d := by
  by_cases ha : a = b
  · subst ha
    exact fun havoid => hdom (havoid.of_splitIf_self h).2
  · intro havoid
    rcases havoid.of_splitIf h ha with ⟨rfl | rfl, -⟩ | ⟨-, havoid⟩
    · exact h.not_mem hd
    · exact h.not_mem' hd
    · exact hdom havoid

/-- What is behind `b` is behind the rest of it. -/
theorem StrictDom.splitIf_tail (hd : d ∈ nodes) (hdom : G.StrictDom b d) :
    (G.splitIf b c t).StrictDom t d := by
  intro havoid
  rcases havoid.of_splitIf_tail h with ⟨rfl | rfl, -⟩ | ⟨-, havoid⟩
  · exact h.not_mem hd
  · exact h.not_mem' hd
  · exact hdom havoid

/-- What control has completed at the split block, and the block itself, it has completed at the new
    blocks. -/
theorem strictDom_splitIf_new (hx : x = c ∨ x = t) (hdom : a = b ∨ G.StrictDom a b) :
    (G.splitIf b c t).StrictDom a x := by
  have hnew : x ∉ nodes := by
    rcases hx with rfl | rfl
    exacts [h.not_mem, h.not_mem']
  intro havoid
  by_cases ha : a = b
  · subst ha
    exact hnew (havoid.of_splitIf_self h).1
  · rcases havoid.of_splitIf h ha with ⟨-, havoid⟩ | ⟨hmem, -⟩
    · exact hdom.resolve_left ha havoid
    · exact hnew hmem

/-- Where control never arrives, it never arrives at the new blocks. -/
theorem StrictDom.splitIf_tail_new (hx : x = c ∨ x = t) (hdom : G.StrictDom b b) :
    (G.splitIf b c t).StrictDom t x := by
  have hnew : x ∉ nodes := by
    rcases hx with rfl | rfl
    exacts [h.not_mem, h.not_mem']
  intro havoid
  rcases havoid.of_splitIf_tail h with ⟨-, havoid⟩ | ⟨hmem, -⟩
  · exact hdom havoid
  · exact hnew hmem

end

/-! ## Deciding dominance -/

variable (G) [DecidableEq B]

/-- One round: the successors of the blocks other than `a` are added. -/
def grow (a : B) (S : Finset B) : Finset B :=
  S ∪ (S.filter (· ≠ a)).biUnion fun b => (G.succ b).toFinset

/-- The blocks found in `n` rounds. -/
def avoidSet (a : B) (n : ℕ) : Finset B := (G.grow a)^[n] {G.entry}

variable {G}

theorem avoidSet_succ (a : B) (n : ℕ) : G.avoidSet a (n + 1) = G.grow a (G.avoidSet a n) :=
  Function.iterate_succ_apply' ..

theorem mem_grow {S : Finset B} :
    c ∈ G.grow a S ↔ c ∈ S ∨ ∃ b ∈ S, b ≠ a ∧ c ∈ G.succ b := by
  simp only [grow, Finset.mem_union, Finset.mem_biUnion, Finset.mem_filter, List.mem_toFinset,
    and_assoc]

theorem avoids_of_mem {n : ℕ} (h : b ∈ G.avoidSet a n) : G.Avoids a b := by
  induction n generalizing b with
  | zero =>
      rw [Finset.mem_singleton.1 h]
      exact .entry
  | succ n ih =>
      rw [avoidSet_succ, mem_grow] at h
      rcases h with h | ⟨d, hd, hda, hb⟩
      · exact ih h
      · exact (ih hd).step hda hb

/-- The rounds have stopped, or have found at least one block each. -/
theorem stable_or_le_card (a : B) (n : ℕ) :
    G.avoidSet a (n + 1) = G.avoidSet a n ∨ n + 1 ≤ (G.avoidSet a n).card := by
  induction n with
  | zero => exact Or.inr (Finset.card_singleton G.entry).ge
  | succ n ih =>
      by_cases hstable : G.avoidSet a (n + 1) = G.avoidSet a n
      · left
        rw [avoidSet_succ, hstable, ← avoidSet_succ, hstable]
      · right
        have hsub : G.avoidSet a n ⊆ G.avoidSet a (n + 1) := by
          rw [avoidSet_succ]
          exact Finset.subset_union_left
        have hlt := Finset.card_lt_card (hsub.ssubset_of_ne fun h => hstable h.symm)
        have hle := ih.resolve_left hstable
        omega

/-- **After as many rounds as there are blocks, exactly the blocks that avoid `a` are found.** -/
theorem mem_avoidSet_iff {nodes : Finset B} (hentry : G.entry ∈ nodes)
    (hsucc : ∀ b ∈ nodes, ∀ c ∈ G.succ b, c ∈ nodes) :
    b ∈ G.avoidSet a nodes.card ↔ G.Avoids a b := by
  refine ⟨avoids_of_mem, fun h => ?_⟩
  -- the rounds never leave `nodes`, so they have stopped by the last one
  have hnodes : ∀ n, G.avoidSet a n ⊆ nodes := by
    intro n
    induction n with
    | zero => exact Finset.singleton_subset_iff.2 hentry
    | succ n ih =>
        intro c hc
        rw [avoidSet_succ, mem_grow] at hc
        rcases hc with hc | ⟨d, hd, -, hc⟩
        · exact ih hc
        · exact hsucc d (ih hd) c hc
  have hstable : G.avoidSet a (nodes.card + 1) = G.avoidSet a nodes.card := by
    refine (stable_or_le_card a nodes.card).resolve_right fun hle => ?_
    have hcard := Finset.card_le_card (hnodes nodes.card)
    omega
  induction h with
  | entry =>
      have hmono : ∀ n, G.entry ∈ G.avoidSet a n := by
        intro n
        induction n with
        | zero => exact Finset.mem_singleton_self _
        | succ n ih =>
            rw [avoidSet_succ]
            exact Finset.mem_union_left _ ih
      exact hmono _
  | step _ hb hc ih =>
      rw [← hstable, avoidSet_succ, mem_grow]
      exact Or.inr ⟨_, ih, hb, hc⟩

end Cfg
