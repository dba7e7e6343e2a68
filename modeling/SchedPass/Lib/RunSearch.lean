import Mathlib.Data.List.DropRight
import Mathlib.Data.List.Infix

set_option autoImplicit false

/-! # Searching for a mark behind a run

`searchRun p mark` is the search for a pattern `(p+)mark` with a greedy run, where the mark has no `p`. The
leftmost match starts at the first run that has the mark behind it: there is an earlier one exactly where the
text ahead contains the mark behind a `p` (`searchRun_of_not_marked`, `searchRun_of_marked`). -/

universe u

section

variable {α : Type u} {p : α → Bool} {mark : List α}

/-! ## Runs -/

theorem forall_head_append {P : α → Prop} {s : List α} (hne : s ≠ []) (h : ∀ c ∈ s, P c) (t : List α) :
    ∀ c ∈ (s ++ t).head?, P c := by
  intro c hc
  rw [List.head?_append_of_ne_nil _ hne] at hc
  exact h c (List.mem_of_mem_head? hc)

/-- A text is a run and what does not continue it. -/
theorem exists_run (p : α → Bool) (s : List α) :
    ∃ run rest, s = run ++ rest ∧ (∀ c ∈ run, p c = true) ∧ ∀ c ∈ rest.head?, p c = false := by
  refine ⟨s.takeWhile p, s.dropWhile p, List.takeWhile_append_dropWhile.symm, fun c => List.mem_takeWhile_imp, ?_⟩
  intro c hc
  have := List.head?_dropWhile_not p s
  rw [hc] at this
  simpa using this

/-- The run that a text ends in is that of its second part, where that part is not all of it. -/
theorem rtakeWhile_append {s t : List α} (ht : ∃ c ∈ t, p c = false) :
    (s ++ t).rtakeWhile p = t.rtakeWhile p := by
  induction t using List.reverseRecOn with
  | nil => simp at ht
  | append_singleton t a ih =>
      rw [← List.append_assoc, List.rtakeWhile_concat, List.rtakeWhile_concat]
      split
      · next ha =>
          obtain ⟨c, hc, hpc⟩ := ht
          rcases List.mem_append.1 hc with hc | hc
          · rw [ih ⟨c, hc, hpc⟩]
          · rw [List.mem_singleton.1 hc, ha] at hpc
            cases hpc
      · rfl

/-! ## Marked texts -/

/-- The text contains the mark behind a `p`. -/
def Marked (p : α → Bool) (mark s : List α) : Prop := ∃ c, p c = true ∧ c :: mark <:+: s

theorem not_marked_nil : ¬Marked p mark [] := by
  rintro ⟨c, -, h⟩
  exact absurd (List.infix_nil.1 h) (List.cons_ne_nil _ _)

theorem marked_cons_iff {c : α} {s : List α} :
    Marked p mark (c :: s) ↔ (p c = true ∧ mark <+: s) ∨ Marked p mark s := by
  constructor
  · rintro ⟨d, hd, h⟩
    rcases List.infix_cons_iff.1 h with h | h
    · obtain ⟨rfl, hmark⟩ := List.cons_prefix_cons.1 h
      exact .inl ⟨hd, hmark⟩
    · exact .inr ⟨d, hd, h⟩
  · rintro (⟨hc, h⟩ | ⟨d, hd, h⟩)
    · exact ⟨c, hc, List.infix_cons_iff.2 (.inl (List.cons_prefix_cons.2 ⟨rfl, h⟩))⟩
    · exact ⟨d, hd, List.infix_cons_iff.2 (.inr h)⟩

theorem not_marked_of_forall {s : List α} (hs : ∀ c ∈ s, p c = false) : ¬Marked p mark s := by
  rintro ⟨c, hc, h⟩
  rw [hs c (h.subset List.mem_cons_self)] at hc
  cases hc

theorem Marked.of_infix {s t : List α} (hs : Marked p mark s) (h : s <:+: t) : Marked p mark t := by
  obtain ⟨c, hc, hmark⟩ := hs
  exact ⟨c, hc, hmark.trans h⟩

/-- A prefix without `p` ends ahead of the first `p`. -/
theorem prefix_append_iff (hmark : ∀ c ∈ mark, p c = false) {s t : List α} (ht : ∀ c ∈ t.head?, p c = true) :
    mark <+: s ++ t ↔ mark <+: s := by
  refine ⟨fun h => ?_, fun h => h.trans (List.prefix_append s t)⟩
  induction s generalizing mark with
  | nil =>
      cases t with
      | nil => exact h
      | cons c t =>
          rcases List.prefix_cons_iff.1 h with rfl | ⟨m, rfl, -⟩
          · exact List.nil_prefix
          · have hc := hmark c List.mem_cons_self
            rw [ht c rfl] at hc
            cases hc
  | cons a s ih =>
      rcases List.prefix_cons_iff.1 h with rfl | ⟨m, rfl, hm⟩
      · exact List.nil_prefix
      · exact List.cons_prefix_cons.2 ⟨rfl, ih (fun c hc => hmark c (List.mem_cons_of_mem a hc)) hm⟩

/-- A text that continues with a `p`. -/
theorem marked_append_iff (hmark : ∀ c ∈ mark, p c = false) {s t : List α} (ht : ∀ c ∈ t.head?, p c = true) :
    Marked p mark (s ++ t) ↔ Marked p mark s ∨ Marked p mark t := by
  induction s with
  | nil => simp [not_marked_nil]
  | cons c s ih =>
      rw [List.cons_append, marked_cons_iff, marked_cons_iff, ih, prefix_append_iff hmark ht, or_assoc]

/-- A run with a text behind it is marked where the text is, or where the text starts with the mark. -/
theorem marked_run_append_iff (hmark : ∀ c ∈ mark, p c = false) (hne : mark ≠ []) {run s : List α}
    (hrun : run ≠ []) (hp : ∀ c ∈ run, p c = true) :
    Marked p mark (run ++ s) ↔ mark <+: s ∨ Marked p mark s := by
  induction run with
  | nil => exact absurd rfl hrun
  | cons c run ih =>
      obtain ⟨hc, hp⟩ := List.forall_mem_cons.1 hp
      rw [List.cons_append, marked_cons_iff]
      cases run with
      | nil => rw [List.nil_append, and_iff_right hc]
      | cons d run =>
          have hnot : ¬mark <+: d :: run ++ s := by
            intro h
            rcases List.prefix_cons_iff.1 h with rfl | ⟨m, rfl, -⟩
            · exact hne rfl
            · have hd := hmark d List.mem_cons_self
              rw [hp d List.mem_cons_self] at hd
              cases hd
          rw [ih (List.cons_ne_nil d run) hp, or_iff_right fun h => hnot h.2]

/-- In a marked text, the mark at the start is not cut by the end. -/
theorem Marked.prefix_of_append (hmark : ∀ c ∈ mark, p c = false) {s t : List α} (hs : Marked p mark s)
    (h : mark <+: s ++ t) : mark <+: s := by
  obtain ⟨c, hc, u, v, rfl⟩ := hs
  rw [List.append_assoc, List.append_assoc, prefix_append_iff hmark (by rintro _ ⟨⟩; exact hc)] at h
  rw [List.append_assoc]
  exact h.trans (List.prefix_append _ _)

/-! ## The search -/

variable [DecidableEq α]

/-- The leftmost match: the text ahead of it, the run, and the text behind the mark. -/
def searchRun (p : α → Bool) (mark : List α) : List α → Option (List α × List α × List α)
  | [] => none
  | c :: s =>
      let run := (c :: s).takeWhile p
      let rest := (c :: s).dropWhile p
      if run ≠ [] ∧ mark <+: rest then some ([], run, rest.drop mark.length)
      else (searchRun p mark s).map fun (pre, run, post) => (c :: pre, run, post)

theorem searchRun_cons_of_neg {c : α} {s : List α} (hc : p c = false) :
    searchRun p mark (c :: s) = (searchRun p mark s).map fun (pre, run, post) => (c :: pre, run, post) := by
  rw [searchRun, List.takeWhile_cons_of_neg (by simp [hc])]
  exact if_neg fun h => h.1 rfl

/-- A run either has the mark behind it or is not matched from its start. -/
theorem searchRun_run {c : α} {run rest : List α} (hp : ∀ a ∈ c :: run, p a = true)
    (hrest : ∀ a ∈ rest.head?, p a = false) :
    searchRun p mark (c :: (run ++ rest)) =
      if mark <+: rest then some ([], c :: run, rest.drop mark.length)
      else (searchRun p mark (run ++ rest)).map fun (pre, run, post) => (c :: pre, run, post) := by
  have htake : rest.takeWhile p = [] ∧ rest.dropWhile p = rest := by
    cases rest with
    | nil => exact ⟨rfl, rfl⟩
    | cons a rest =>
        have ha : ¬p a = true := by simp [hrest a rfl]
        exact ⟨List.takeWhile_cons_of_neg ha, List.dropWhile_cons_of_neg ha⟩
  rw [searchRun, ← List.cons_append, List.takeWhile_append_of_pos hp, List.dropWhile_append_of_pos hp, htake.1,
    htake.2, List.append_nil]
  simp only [ne_eq, List.cons_ne_nil, not_false_eq_true, true_and]

/-- **The first mark behind a run**, where nothing ahead is marked. -/
theorem searchRun_of_not_marked (hmark : ∀ c ∈ mark, p c = false) (hne : mark ≠ []) {pre run : List α}
    (post : List α) (hpre : ∀ h : pre ≠ [], p (pre.getLast h) = false) (hrun : run ≠ [])
    (hp : ∀ c ∈ run, p c = true) (hfirst : ¬Marked p mark pre) :
    searchRun p mark (pre ++ (run ++ (mark ++ post))) = some (pre, run, post) := by
  induction pre with
  | nil =>
      obtain ⟨c, run, rfl⟩ := List.exists_cons_of_ne_nil hrun
      rw [List.nil_append, List.cons_append, searchRun_run hp (forall_head_append hne hmark post),
        if_pos (List.prefix_append _ _), List.drop_left]
  | cons a pre ih =>
      have hlater : searchRun p mark (pre ++ (run ++ (mark ++ post))) = some (pre, run, post) := by
        refine ih (fun h => ?_) fun h => hfirst (marked_cons_iff.2 (.inr h))
        rw [← List.getLast_cons h]
        exact hpre (List.cons_ne_nil a pre)
      cases ha : p a with
      | false => rw [List.cons_append, searchRun_cons_of_neg ha, hlater, Option.map_some]
      | true =>
          obtain ⟨r, rest, rfl, hr, hrest⟩ := exists_run p pre
          have hr : ∀ c ∈ a :: r, p c = true := List.forall_mem_cons.2 ⟨ha, hr⟩
          have hrestNe : rest ≠ [] := by
            rintro rfl
            have hlast := hpre (List.cons_ne_nil a _)
            rw [hr _ (by simp)] at hlast
            cases hlast
          have hhead : ∀ c ∈ (run ++ (mark ++ post)).head?, p c = true := forall_head_append hrun hp _
          have hnot : ¬mark <+: rest ++ (run ++ (mark ++ post)) := by
            intro h
            exact hfirst ((marked_run_append_iff hmark hne (List.cons_ne_nil a r) hr).2
              (.inl ((prefix_append_iff hmark hhead).1 h)))
          rw [List.cons_append, List.append_assoc, searchRun_run hr, if_neg hnot, ← List.append_assoc, hlater,
            Option.map_some]
          rwa [List.head?_append_of_ne_nil _ hrestNe]

/-- **An earlier mark**: the match leaves all that is behind it. -/
theorem searchRun_of_marked (hmark : ∀ c ∈ mark, p c = false) (hne : mark ≠ []) {s : List α}
    (hs : Marked p mark s) (t : List α) :
    ∃ pre run post, searchRun p mark (s ++ t) = some (pre, run, post) ∧ t <:+ post := by
  induction s with
  | nil => exact absurd hs not_marked_nil
  | cons a s ih =>
      cases ha : p a with
      | false =>
          have hs : Marked p mark s := (marked_cons_iff.1 hs).resolve_left fun h => by simp [ha] at h
          obtain ⟨pre, run, post, hfound, hsuffix⟩ := ih hs
          exact ⟨a :: pre, run, post, by rw [List.cons_append, searchRun_cons_of_neg ha, hfound]; rfl, hsuffix⟩
      | true =>
          obtain ⟨r, rest, rfl, hr, hrest⟩ := exists_run p s
          have hr : ∀ c ∈ a :: r, p c = true := List.forall_mem_cons.2 ⟨ha, hr⟩
          have hmarked := (marked_run_append_iff hmark hne (List.cons_ne_nil a r) hr).1 hs
          have hrestNe : rest ≠ [] := by
            rintro rfl
            exact hmarked.elim (fun h => hne (List.prefix_nil.1 h)) not_marked_nil
          have hhead : ∀ c ∈ (rest ++ t).head?, p c = false := by
            rwa [List.head?_append_of_ne_nil _ hrestNe]
          rw [List.cons_append, List.append_assoc, searchRun_run hr hhead]
          split
          · next hfound =>
              have hprefix : mark <+: rest := hmarked.elim id fun h => h.prefix_of_append hmark hfound
              obtain ⟨u, rfl⟩ := hprefix
              refine ⟨_, _, _, rfl, ?_⟩
              rw [List.append_assoc, List.drop_left]
              exact List.suffix_append u t
          · next hmiss =>
              have hrestMarked : Marked p mark rest :=
                hmarked.resolve_left fun h => hmiss (h.trans (List.prefix_append rest t))
              obtain ⟨pre, run, post, hfound, hsuffix⟩ :=
                ih (hrestMarked.of_infix (List.suffix_append r rest).isInfix)
              rw [← List.append_assoc, hfound]
              exact ⟨_, _, _, rfl, hsuffix⟩

end
