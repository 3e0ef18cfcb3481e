import LinearSSA.Proofs.Recency
import Mathlib.Algebra.Ring.Nat

/-! Redirected jumps, counted. The entries of one statement stand side by side in the index,
whatever edits made the chain, so that a redirection comes to each statement once. It changes the
jumps to the old target and nothing else, and its answer is the number of these jumps, even where
the new target is the old one. -/

namespace LinearSSA

namespace Stmt

variable {s s' : Stmt}

/-- The statement without the labels that it jumps to. -/
def unlinked : Stmt → Stmt
  | .goto _ => .goto ⟨0⟩
  | .branch v _ => .branch v ⟨0⟩
  | .switch v _ _ => .switch v [] ⟨0⟩
  | s => s

@[simp] theorem unlinked_retarget (old new : Label) (s : Stmt) :
    (s.retarget old new).unlinked = s.unlinked := by
  cases s <;> rfl

/-- The jump targets are all that `unlinked` forgets. -/
theorem eq_of_unlinked (h : s.unlinked = s'.unlinked) (hj : s.jumpTargets = s'.jumpTargets) :
    s = s' := by
  cases s <;> cases s' <;> simp_all [unlinked, jumpTargets]

end Stmt

namespace Chain

variable {c c' : Chain} {l t old new : Label} {ls : List Label}

/-! ### Entries side by side -/

theorem collapse_replicate_append {α : Type} [DecidableEq α] {a : α} {as : List α}
    (h : a ∉ as) (n : Nat) : collapse (List.replicate (n + 1) a ++ as) = a :: collapse as := by
  induction n with
  | zero =>
    cases as with
    | nil => rfl
    | cons b bs =>
      have hab : a ≠ b := fun he => h (by simp [he])
      simp [collapse, hab]
  | succ n ih =>
    rw [List.replicate_succ, List.replicate_succ] at *
    simpa [collapse] using ih

/-- Of labels that stand side by side with their repetitions, each is kept once. -/
theorem collapse_flatMap_replicate (hd : ls.Nodup) (n : Label → Nat) :
    collapse (ls.flatMap fun l => List.replicate (n l) l) = ls.filter (n · ≠ 0) := by
  induction ls with
  | nil => rfl
  | cons l ls ih =>
    obtain ⟨hl, hd⟩ := List.nodup_cons.mp hd
    rw [List.flatMap_cons, List.filter_cons]
    cases hn : n l with
    | zero => simpa using ih hd
    | succ m =>
      have hrest : l ∉ ls.flatMap fun l => List.replicate (n l) l := by
        simp only [List.mem_flatMap, List.mem_replicate, not_exists, not_and]
        rintro k hk - rfl
        exact hl hk
      rw [collapse_replicate_append hrest, ih hd, if_pos (by simp)]

/-- The number of jumps to `t` that the statement under `l` holds; none if there is no statement. -/
def jumpCount (c : Chain) (t l : Label) : Nat :=
  ((c.get? l).map (·.jumpTargets.count t)).getD 0

theorem jumpCount_of_get? {s : Stmt} (hs : c.get? l = some s) (t : Label) :
    c.jumpCount t l = s.jumpTargets.count t := by
  rw [jumpCount, hs]
  rfl

theorem jumpCount_ne_zero_iff :
    c.jumpCount t l ≠ 0 ↔ ∃ s, c.get? l = some s ∧ t ∈ s.jumpTargets := by
  cases hs : c.get? l with
  | none => simp [jumpCount, hs]
  | some s => simp [jumpCount_of_get? hs, List.count_eq_zero]

theorem map_source_usesBy (c : Chain) (t l : Label) :
    ((c.usesBy t l).filter (·.isJump)).map (·.source) = List.replicate (c.jumpCount t l) l := by
  cases hs : c.get? l with
  | none => simp [usesBy, jumpCount, hs]
  | some s =>
    refine List.eq_replicate_iff.mpr ⟨?_, ?_⟩
    · rw [List.length_map, ← List.countP_eq_length_filter, usesBy_of_get? hs, Stmt.uses,
        List.countP_map, List.countP_filter, jumpCount_of_get? hs, ← s.count_refs_jump, List.count]
      refine List.countP_congr fun r _ => ?_
      obtain ⟨t', kind⟩ := r
      simp [Use.isJump, and_comm]
    · intro k hk
      obtain ⟨u, hu, rfl⟩ := List.mem_map.mp hk
      exact source_of_mem_usesBy (List.mem_filter.mp hu).1

theorem Ordered.jumpSources_eq (h : c.Ordered ls) (t : Label) :
    c.jumpSources t = (c.byAge ls).filter (c.jumpCount t · ≠ 0) := by
  rw [jumpSources, h.refsTo, List.filter_flatMap, List.map_flatMap]
  simp only [map_source_usesBy]
  exact collapse_flatMap_replicate (nodup_byAge c ls) _

theorem Reachable.nodup_jumpSources (h : c.Reachable) (t : Label) : (c.jumpSources t).Nodup := by
  obtain ⟨es, rfl⟩ := h
  have hord := (WellFormed.empty.records_run es).ordered
  rw [hord.jumpSources_eq]
  exact (nodup_byAge _ _).filter _

/-! ### The number of jumps -/

theorem sum_map_filter_ne_zero (f : Label → Nat) (ls : List Label) :
    ((ls.filter (f · ≠ 0)).map f).sum = (ls.map f).sum := by
  induction ls with
  | nil => rfl
  | cons l ls ih =>
    by_cases hl : f l = 0
    · simpa [hl] using ih
    · simpa [hl] using ih

/-- The jumps of all statements, statement by statement. -/
theorem count_jumpTargets (c : Chain) (t : Label) :
    (c.lines.flatMap (·.stmt.jumpTargets)).count t = (c.labels.map (c.jumpCount t)).sum := by
  rw [lines]
  induction c.labels with
  | nil => rfl
  | cons l ls ih =>
    cases hs : c.get? l with
    | none => simp [hs, ih, jumpCount]
    | some s => simp [hs, ih, jumpCount]

/-- The statements that a redirection comes to hold all the jumps to `t`, and each of them is
counted once. -/
theorem Reachable.sum_jumpSources (h : c.Reachable) (t : Label) :
    ((c.jumpSources t).map (c.jumpCount t)).sum =
      (c.lines.flatMap (·.stmt.jumpTargets)).count t := by
  have hc := h.wellFormed
  have hperm : (c.jumpSources t).Perm (c.labels.filter (c.jumpCount t · ≠ 0)) := by
    refine (List.perm_ext_iff_of_nodup (h.nodup_jumpSources t) (hc.nodup.filter _)).mpr fun l => ?_
    rw [hc.mem_jumpSources, ← jumpCount_ne_zero_iff, List.mem_filter, decide_eq_true_eq]
    refine ⟨fun hn => ⟨?_, hn⟩, fun hn => hn.2⟩
    obtain ⟨s, hs, -⟩ := jumpCount_ne_zero_iff.mp hn
    exact hc.mem_labels_of_get? hs
  rw [(hperm.map _).sum_nat, sum_map_filter_ne_zero, count_jumpTargets]

/-- What a redirection that comes to no statement twice answers. -/
theorem result_retargetEach (hd : ls.Nodup) (hls : ∀ l ∈ ls, c.contains l = true) :
    (retargetEach old new ls c).result = .ok (ls.map (c.jumpCount old)).sum := by
  induction ls generalizing c with
  | nil => rfl
  | cons l ls ih =>
    obtain ⟨hl, hd⟩ := List.nodup_cons.mp hd
    obtain ⟨s, hs⟩ := contains_iff.mp (hls l (by simp))
    have hmod : c.modify l (·.retargetCounted old new) =
        .done (c.jumpCount old l) (c.update l (·.retarget old new)) := by
      simp [modify, hs, Stmt.retargetCounted, jumpCount]
    have hrest : ∀ k ∈ ls, (c.update l (·.retarget old new)).contains k = true := by
      intro k hk
      rw [contains_update]
      exact hls k (by simp [hk])
    -- the statements still to come have not been changed
    have hcount : ls.map ((c.update l (·.retarget old new)).jumpCount old) =
        ls.map (c.jumpCount old) := by
      refine List.map_congr_left fun k hk => ?_
      have hkl : k ≠ l := fun he => hl (he ▸ hk)
      rw [jumpCount, get?_update, if_neg hkl, jumpCount]
    rw [retargetEach, hmod, Outcome.done_bind, List.map_cons, List.sum_cons, ← hcount,
      Outcome.result_map, ih hd hrest]
    rfl

/-- Every jump to `old` goes to `new` and is counted, and nothing else changes. -/
theorem Reachable.retarget_counted (h : c.Reachable) (ho : c.contains old = true)
    (hn : c.contains new = true) :
    ∃ c', c.retarget old new = .done ((c.lines.flatMap (·.stmt.jumpTargets)).count old) c' ∧
      c.Maps (·.retarget old new) c' := by
  have hc := h.wellFormed
  obtain ⟨n, c', hdone, hmaps⟩ := hc.retarget ho hn
  have hsources : ∀ l ∈ c.jumpSources old, c.contains l = true := by
    intro l hl
    obtain ⟨s, hs, -⟩ := hc.mem_jumpSources.mp hl
    exact contains_iff.mpr ⟨s, hs⟩
  have hres : (c.retarget old new).result =
      .ok ((c.lines.flatMap (·.stmt.jumpTargets)).count old) := by
    rw [Chain.retarget, ho, hn, ← h.sum_jumpSources]
    exact result_retargetEach (h.nodup_jumpSources old) hsources
  rw [hdone] at hres
  obtain rfl := Except.ok.inj hres
  exact ⟨c', hdone, hmaps⟩

/-! ### The redirected chain -/

/-- A statement is the redirected one exactly if it differs from the old one by its jumps. -/
theorem Maps.get?_eq_some_iff (h : c.Maps (·.retarget old new) c') {k : Label} {s' : Stmt} :
    c'.get? k = some s' ↔ ∃ s, c.get? k = some s ∧ s'.unlinked = s.unlinked ∧
      s'.jumpTargets = s.jumpTargets.map fun t => if t = old then new else t := by
  rw [h.get?, Option.map_eq_some_iff]
  refine exists_congr fun s => and_congr_right fun _ => ?_
  constructor
  · rintro rfl
    exact ⟨s.unlinked_retarget old new, s.jumpTargets_retarget old new⟩
  · rintro ⟨hrest, hj⟩
    refine Stmt.eq_of_unlinked ?_ ?_
    · rw [Stmt.unlinked_retarget, hrest]
    · rw [Stmt.jumpTargets_retarget, hj]
      rfl

theorem retarget_of_not_isBranchedTo (ho : c.contains old = true) (hn : c.contains new = true)
    (hb : c.isBranchedTo old = false) : c.retarget old new = .done 0 c := by
  have hnone : (c.refsTo old).filter (·.isJump) = [] := by
    simpa [isBranchedTo, List.filter_eq_nil_iff] using hb
  rw [retarget, ho, hn, jumpSources, hnone]
  rfl

/-- A redirection between statements of the chain is done. It counts the jumps to the old target,
and it changes them and nothing else. -/
theorem Reachable.retarget_redirects_jumps (h : c.Reachable) (ho : c.contains old = true)
    (hn : c.contains new = true) :
    ∃ c', c.retarget old new = .done ((c.lines.flatMap (·.stmt.jumpTargets)).count old) c' ∧
      c'.labels = c.labels ∧
      (∀ k s', c'.get? k = some s' ↔ ∃ s, c.get? k = some s ∧ s'.unlinked = s.unlinked ∧
        s'.jumpTargets = s.jumpTargets.map fun t => if t = old then new else t) ∧
      c'.phis = c.phis ∧
      (old ≠ new → (∀ k s', c'.get? k = some s' → old ∉ s'.jumpTargets) ∧
        c'.isBranchedTo old = false ∧ c'.retarget old new = .done 0 c') := by
  obtain ⟨c', hdone, hmaps⟩ := h.retarget_counted ho hn
  have hphis : c'.phis = c.phis := by
    rw [hmaps.phis_eq_map (g := id) (by simp)]
    exact c.phis.map_id
  refine ⟨c', hdone, hmaps.labels, fun k s' => hmaps.get?_eq_some_iff, hphis, fun hne => ?_⟩
  have hgone : ∀ k s', c'.get? k = some s' → old ∉ s'.jumpTargets := by
    intro k s' hs'
    rw [hmaps.get?] at hs'
    obtain ⟨s, -, rfl⟩ := Option.map_eq_some_iff.mp hs'
    exact s.not_mem_jumpTargets_retarget hne
  have hb : c'.isBranchedTo old = false := by
    rw [← Bool.not_eq_true, hmaps.wellFormed.isBranchedTo_iff]
    rintro ⟨k, s', hs', hold⟩
    exact hgone k s' hs' hold
  exact ⟨hgone, hb, retarget_of_not_isBranchedTo (by rw [hmaps.contains, ho])
    (by rw [hmaps.contains, hn]) hb⟩

/-- A switch that names a label three times and a branch that names it once. -/
theorem retarget_redirects_jumps_of_switch :
    let c := run [.push .nop, .push (.switch (.var ⟨0⟩) [⟨0⟩, ⟨3⟩, ⟨0⟩] ⟨0⟩),
      .push (.branch (.var ⟨1⟩) ⟨0⟩), .push (.assign ⟨2⟩ (.phi ⟨[⟨.var ⟨1⟩, ⟨0⟩⟩]⟩)),
      .retarget ⟨0⟩ ⟨0⟩] empty
    c.contains ⟨0⟩ = true ∧ c.contains ⟨3⟩ = true ∧ (c.retarget ⟨0⟩ ⟨0⟩).result = .ok 4 ∧
      (c.retarget ⟨0⟩ ⟨3⟩).result = .ok 4 ∧ (c.retarget ⟨0⟩ ⟨3⟩).chain.phis = c.phis := by
  intro c
  have hc : c.Reachable := ⟨_, rfl⟩
  have ho : c.contains ⟨0⟩ = true := by rfl
  have hn : c.contains ⟨3⟩ = true := by rfl
  obtain ⟨c₁, hsame, -⟩ := hc.retarget_redirects_jumps ho ho
  obtain ⟨c₂, hdone, -, -, hphis, -⟩ := hc.retarget_redirects_jumps ho hn
  rw [hsame, hdone]
  exact ⟨ho, hn, by rfl, by rfl, hphis⟩

end Chain

end LinearSSA
