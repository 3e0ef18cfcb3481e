import LinearSSA.Proofs.WellFormed

/-! Redirected jumps. On a well-formed chain the index names every statement that jumps to the
old target, so that all of them are changed, one of them perhaps more than once. -/

namespace LinearSSA

namespace Stmt

@[simp] theorem redirect_self (l k : Label) : redirect l l k = k := by
  unfold redirect
  split
  · next h => exact h.symm
  · rfl

theorem redirect_of_ne {old k : Label} (h : k ≠ old) (new : Label) : redirect old new k = k :=
  if_neg h

theorem redirect_redirect (old new k : Label) :
    redirect old new (redirect old new k) = redirect old new k := by
  by_cases h : k = old
  · by_cases hn : new = old <;> simp [redirect, h, hn]
  · simp [redirect, h]

/-- A statement without a jump that is redirected stays as it is. -/
theorem retarget_of_fixed {old new : Label} {s : Stmt}
    (h : ∀ t ∈ s.jumpTargets, redirect old new t = t) : s.retarget old new = s := by
  cases s with
  | goto t => rw [retarget, h t (by simp [jumpTargets])]
  | branch v t => rw [retarget, h t (by simp [jumpTargets])]
  | switch v ts d =>
    have hts : ts.map (redirect old new) = ts :=
      (List.map_congr_left fun t ht => h t (by simp [jumpTargets, ht])).trans ts.map_id
    rw [retarget, hts, h d (by simp [jumpTargets])]
  | _ => rfl

theorem retarget_of_not_mem {old : Label} {s : Stmt} (h : old ∉ s.jumpTargets) (new : Label) :
    s.retarget old new = s :=
  retarget_of_fixed fun t ht => redirect_of_ne (fun he : t = old => h (he ▸ ht)) new

@[simp] theorem retarget_self (l : Label) (s : Stmt) : s.retarget l l = s :=
  retarget_of_fixed fun t _ => redirect_self l t

theorem retarget_retarget (old new : Label) (s : Stmt) :
    (s.retarget old new).retarget old new = s.retarget old new := by
  refine retarget_of_fixed fun t ht => ?_
  rw [jumpTargets_retarget] at ht
  obtain ⟨k, -, rfl⟩ := List.mem_map.mp ht
  exact redirect_redirect old new k

/-- No jump to the old target is left, unless it is the new one as well. -/
theorem not_mem_jumpTargets_retarget {old new : Label} (hne : old ≠ new) (s : Stmt) :
    old ∉ (s.retarget old new).jumpTargets := by
  rw [jumpTargets_retarget, List.mem_map]
  rintro ⟨t, -, ht⟩
  unfold redirect at ht
  split at ht
  · exact hne ht.symm
  · next h => exact h ht

end Stmt

namespace Chain

/-- The labels are those of `c`, and under each of them `f` of its statement stands. -/
structure Maps (f : Stmt → Stmt) (c c' : Chain) : Prop where
  wellFormed : c'.WellFormed
  labels : c'.labels = c.labels
  get? : ∀ k, c'.get? k = (c.get? k).map f

theorem WellFormed.maps_self {c : Chain} (hc : c.WellFormed) {f : Stmt → Stmt}
    (hf : ∀ k s, c.get? k = some s → f s = s) : c.Maps f c where
  wellFormed := hc
  labels := rfl
  get? k := by
    cases hk : c.get? k with
    | none => rfl
    | some s => rw [Option.map_some, hf k s hk]

theorem mem_collapse {α : Type} [DecidableEq α] {a : α} (as : List α) :
    a ∈ collapse as ↔ a ∈ as := by
  fun_induction collapse as with
  | case1 => rfl
  | case2 => rfl
  | case3 b bs ih => simp [ih]
  | case4 b b' bs _ ih => simp [ih]

namespace WellFormed

variable {c : Chain}

/-- The jumps to `l` are found at the statements that hold one. -/
theorem mem_jumpSources (hc : c.WellFormed) {a l : Label} :
    a ∈ c.jumpSources l ↔ ∃ s, c.get? a = some s ∧ l ∈ s.jumpTargets := by
  rw [jumpSources, mem_collapse, List.mem_map]
  constructor
  · rintro ⟨⟨a, kind⟩, hm, rfl⟩
    obtain ⟨hm, hk⟩ := List.mem_filter.mp hm
    obtain rfl : kind = .jump := of_decide_eq_true hk
    obtain ⟨s, hs, hr⟩ := hc.mem_refsTo.mp hm
    exact ⟨s, hs, (s.mem_refs_jump l).mp hr⟩
  · rintro ⟨s, hs, hl⟩
    refine ⟨⟨a, .jump⟩, List.mem_filter.mpr ⟨?_, rfl⟩, rfl⟩
    exact hc.mem_refsTo.mpr ⟨s, hs, (s.mem_refs_jump l).mpr hl⟩

/-- One statement after another is changed, and none of the changes is refused. -/
theorem retargetEach (hc : c.WellFormed) (old new : Label) {ls : List Label}
    (hls : ∀ l ∈ ls, c.contains l = true) :
    ∃ n c', Chain.retargetEach old new ls c = .done n c' ∧ c'.WellFormed ∧
      c'.labels = c.labels ∧
      ∀ k, c'.get? k = if k ∈ ls then (c.get? k).map (·.retarget old new) else c.get? k := by
  induction ls generalizing c with
  | nil => exact ⟨0, c, rfl, hc, rfl, fun k => by simp⟩
  | cons l ls ih =>
    obtain ⟨s, hs⟩ := contains_iff.mp (hls l (by simp))
    have hget := fun k => get?_update c l k (·.retarget old new)
    have hrest : ∀ k ∈ ls, (c.update l (·.retarget old new)).contains k = true := by
      intro k hk
      rw [contains_update]
      exact hls k (by simp [hk])
    obtain ⟨n, c', hdone, hwf, hlabels, hget'⟩ := ih (hc.update l (·.retarget old new)) hrest
    have hmod : c.modify l (·.retargetCounted old new) =
        .done (s.jumpTargets.count old) (c.update l (·.retarget old new)) := by
      simp [Chain.modify, hs, Stmt.retargetCounted]
    refine ⟨s.jumpTargets.count old + n, c', ?_, hwf, by rw [hlabels, labels_update], fun k => ?_⟩
    · rw [Chain.retargetEach, hmod, Outcome.done_bind, hdone, Outcome.map_done]
    · -- a statement that comes up again has no jump left to change
      rw [hget' k, hget k]
      by_cases hkl : k = l
      · subst hkl
        by_cases hk : k ∈ ls <;> simp [hk, hs, Stmt.retarget_retarget]
      · simp [hkl]

/-- Every jump to `old` goes to `new`, and nothing else changes. -/
theorem retarget (hc : c.WellFormed) {old new : Label} (ho : c.contains old = true)
    (hn : c.contains new = true) :
    ∃ n c', c.retarget old new = .done n c' ∧ c.Maps (·.retarget old new) c' := by
  have hsources : ∀ l ∈ c.jumpSources old, c.contains l = true := by
    intro l hl
    obtain ⟨s, hs, -⟩ := hc.mem_jumpSources.mp hl
    exact contains_iff.mpr ⟨s, hs⟩
  obtain ⟨n, c', hdone, hwf, hlabels, hget⟩ := hc.retargetEach old new hsources
  refine ⟨n, c', by rw [Chain.retarget, ho, hn]; exact hdone, hwf, hlabels, fun k => ?_⟩
  rw [hget k]
  split
  · rfl
  · next hk =>
    cases hs : c.get? k with
    | none => rfl
    | some s =>
      have hnot : old ∉ s.jumpTargets := fun h => hk (hc.mem_jumpSources.mpr ⟨s, hs, h⟩)
      rw [Option.map_some, Stmt.retarget_of_not_mem hnot]

/-- A redirection is refused and changes nothing, or it is done. -/
theorem retarget_cases (hc : c.WellFormed) (old new : Label) :
    (∃ e, c.retarget old new = .refused e c) ∨
      ∃ n c', c.contains new = true ∧ c.retarget old new = .done n c' ∧
        c.Maps (·.retarget old new) c' := by
  cases ho : c.contains old with
  | false => exact .inl ⟨.unknownStmt old, by rw [Chain.retarget, ho]; rfl⟩
  | true =>
    cases hn : c.contains new with
    | false => exact .inl ⟨.unknownStmt new, by rw [Chain.retarget, ho, hn]; rfl⟩
    | true =>
      obtain ⟨n, c', hdone, hmaps⟩ := hc.retarget ho hn
      exact .inr ⟨n, c', rfl, hdone, hmaps⟩

end WellFormed

end Chain

end LinearSSA
