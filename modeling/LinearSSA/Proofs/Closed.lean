import LinearSSA.Proofs.Reachable

/-! Closed chains: every reference of a statement names a statement of the chain. No edit of a
closed chain leaves a dangling reference, unless its caller writes one. A redirection goes to a
statement of the chain. A removal leaves no reference to the removed statement, and its landing,
where control goes on to, stays in the chain. Rerouted phi arguments come from statements that
control enters the old one from. -/

namespace LinearSSA

/-! ### References of changed statements -/

namespace Stmt

variable {s : Stmt} {old new l : Label} {preds : List Label} {r : Ref}

theorem mem_refs_or_of_retarget (h : r ∈ (s.retarget old new).refs) :
    r ∈ s.refs ∨ r.target = new := by
  obtain ⟨t, kind⟩ := r
  cases kind with
  | jump =>
    rw [mem_refs_jump, jumpTargets_retarget, List.mem_map] at h
    obtain ⟨k, hk, hkt⟩ := h
    by_cases hold : k = old
    · rw [redirect, if_pos hold] at hkt
      exact .inr hkt.symm
    · rw [redirect_of_ne hold] at hkt
      exact .inl ((s.mem_refs_jump t).mpr (hkt ▸ hk))
  | provenance =>
    rw [mem_refs_provenance, phiPreds, phi?_retarget] at h
    exact .inl ((s.mem_refs_provenance t).mpr h)

theorem mem_refs_or_of_reroute (h : r ∈ (s.mapPhi (·.reroute l preds)).refs) :
    r ∈ s.refs ∨ r.target ∈ preds := by
  obtain ⟨t, kind⟩ := r
  cases kind with
  | jump =>
    rw [mem_refs_jump, jumpTargets_mapPhi] at h
    exact .inl ((s.mem_refs_jump t).mpr h)
  | provenance =>
    rw [mem_refs_provenance] at h
    by_cases hl : l ∈ s.phiPreds
    · rw [phiPreds_reroute hl] at h
      rcases List.mem_append.mp h with h | h
      · exact .inl ((s.mem_refs_provenance t).mpr (List.mem_of_mem_erase h))
      · exact .inr h
    · rw [mapPhi_reroute_of_not_mem hl] at h
      exact .inl ((s.mem_refs_provenance t).mpr h)

end Stmt

namespace Chain

variable {c c' : Chain} {l : Label}

/-! ### One edit -/

/-- The statements that control can go on to are in the chain. -/
theorem Closed.contains_of_edge (hcl : c.Closed) (hc : c.WellFormed) {a b : Label}
    (h : c.Edge a b) : c.contains b = true :=
  hc.contains_of_edge h fun s hs hb => hcl a s hs ⟨b, .jump⟩ ((s.mem_refs_jump b).mpr hb)

theorem Maps.closed {f : Stmt → Stmt} (h : c.Maps f c')
    (hf : ∀ k s, c.get? k = some s → ∀ r ∈ (f s).refs, c.contains r.target = true) :
    c'.Closed := by
  intro k s' hs' r hr
  rw [h.get?] at hs'
  obtain ⟨s, hs, rfl⟩ := Option.map_eq_some_iff.mp hs'
  rw [h.contains]
  exact hf k s hs r hr

theorem Erases.closed {f : Stmt → Stmt} (h : c.Erases f l c')
    (hf : ∀ k s, c.get? k = some s → ∀ r ∈ (f s).refs, r.target ≠ l ∧ c.contains r.target = true) :
    c'.Closed := by
  intro k s' hs' r hr
  rw [h.get?] at hs'
  split at hs'
  · cases hs'
  · obtain ⟨s, hs, rfl⟩ := Option.map_eq_some_iff.mp hs'
    exact (h.contains_iff _).mpr (hf k s hs r hr)

namespace Closed

theorem place (hcl : c.Closed) (i : Nat) {s : Stmt}
    (hs : ∀ r ∈ s.refs, (c.place i s).2.contains r.target = true) : (c.place i s).2.Closed := by
  intro k t ht r hr
  rw [get?_place] at ht
  split at ht
  · obtain rfl := Option.some.inj ht
    exact hs r hr
  · have hold := hcl k t ht r hr
    rw [contains] at hold ⊢
    rw [get?_place]
    split
    · rfl
    · exact hold

theorem update (hcl : c.Closed) {f : Stmt → Stmt}
    (hf : ∀ s ∈ (c.get? l).map f, ∀ r ∈ s.refs, c.contains r.target = true) :
    (c.update l f).Closed := by
  intro k t ht r hr
  rw [contains_update]
  rw [get?_update] at ht
  split at ht
  · exact hf t ht r hr
  · exact hcl k t ht r hr

theorem retarget (hcl : c.Closed) (hc : c.WellFormed) (old new : Label) :
    (c.retarget old new).chain.Closed := by
  rcases hc.retarget_cases old new with ⟨e, he⟩ | ⟨n, c', hn, hdone, hmaps⟩
  · rw [he]
    exact hcl
  · rw [hdone]
    refine hmaps.closed fun k s hs r hr => ?_
    rcases Stmt.mem_refs_or_of_retarget hr with hr | hr
    · exact hcl k s hs r hr
    · rw [hr]
      exact hn

theorem remove (hcl : c.Closed) (hc : c.WellFormed) (l : Label) :
    (c.remove l).chain.Closed := by
  rcases hc.remove_cases l with ⟨e, he⟩ | ⟨d, s, c', hl, hp, -, hdone, hrem⟩
  · rw [he]
    exact hcl
  · rw [hdone]
    refine hrem.closed fun k t ht r hr => ?_
    have hne := hc.target_ne_of_mem_refs hl hp ht hr
    refine ⟨hne, ?_⟩
    rcases Stmt.mem_refs_or_of_retarget hr with hr | hr
    · exact hcl k t ht r hr
    · cases d with
      | none => exact absurd hr hne
      | some d =>
        have hland : c.Edge l d := ((hc.landing_eq_some_iff.mp hl).edge_iff d).mpr rfl
        rw [hr]
        exact hcl.contains_of_edge hc hland

theorem rerouted (hcl : c.Closed) (hc : c.WellFormed)
    (hmaps : c.Maps (·.mapPhi (·.reroute l (c.controlPreds l))) c') : c'.Closed := by
  refine hmaps.closed fun k s hs r hr => ?_
  rcases Stmt.mem_refs_or_of_reroute hr with hr | hr
  · exact hcl k s hs r hr
  · exact (hc.mem_controlPreds.mp hr).contains

theorem reroute (hcl : c.Closed) (hc : c.WellFormed) (l : Label) :
    (c.reroute l).chain.Closed := by
  rcases hc.reroute_cases l with ⟨e, he⟩ | ⟨n, c', hdone, hmaps⟩
  · rw [he]
    exact hcl
  · rw [hdone]
    exact hcl.rerouted hc hmaps

theorem excise (hcl : c.Closed) (hc : c.WellFormed) (l : Label) :
    (c.excise l).chain.Closed := by
  rcases hc.excise_cases l with ⟨e, he⟩ | ⟨c₁, hmaps, heq⟩
  · rw [he]
    exact hcl
  · rw [heq]
    exact (hcl.rerouted hc hmaps).remove hmaps.wellFormed l

end Closed

end Chain

/-! ### Any edits -/

/-- What an edit writes for its caller names statements that the chain has afterwards. -/
def Edit.Resolves (e : Edit) (c : Chain) : Prop :=
  ∀ s ∈ e.written? c, ∀ r ∈ s.refs, (e.apply c).contains r.target = true

instance (e : Edit) (c : Chain) : Decidable (e.Resolves c) :=
  inferInstanceAs (Decidable (∀ s ∈ e.written? c, ∀ r ∈ s.refs, _))

namespace Chain

variable {c : Chain}

/-- Every edit of the sequence resolves when its turn comes. -/
def AllResolve : List Edit → Chain → Prop
  | [], _ => True
  | e :: es, c => e.Resolves c ∧ AllResolve es (e.apply c)

namespace Closed

theorem empty : Chain.empty.Closed := by
  intro l s hs
  cases hs

theorem inserted (hcl : c.Closed) {e : Edit} (he : e.Resolves c) {s : Stmt}
    (hins : e.Inserts s c) : (e.apply c).Closed := by
  rcases hins with ⟨-, happ⟩ | ⟨i, -, -, hs, happ⟩
  · rw [happ]
    exact hcl
  · have hrefs := he s hs
    rw [happ] at hrefs ⊢
    exact hcl.place i hrefs

theorem updated (hcl : c.Closed) {e : Edit} (he : e.Resolves c) {l : Label} {f : Stmt → Stmt}
    (happ : e.apply c = c.update l f) (hw : e.written? c = (c.get? l).map f) :
    (e.apply c).Closed := by
  unfold Edit.Resolves at he
  simp only [happ, hw, contains_update] at he
  rw [happ]
  exact hcl.update he

/-- What one edit preserves. -/
theorem apply (hcl : c.Closed) (hc : c.WellFormed) {e : Edit} (he : e.Resolves c) :
    (e.apply c).Closed := by
  cases e with
  | push s => exact hcl.inserted he (Edit.inserts_push s c)
  | insertAfter a s => exact hcl.inserted he (Edit.inserts_insertAfter a s c)
  | insertBefore a s => exact hcl.inserted he (Edit.inserts_insertBefore a s c)
  | modify l f => exact hcl.updated he (chain_modify c l _) rfl
  | replace l s => exact hcl.updated he (chain_modify c l _) rfl
  | retarget old new => exact hcl.retarget hc old new
  | remove l => exact hcl.remove hc l
  | reroute l => exact hcl.reroute hc l
  | excise l => exact hcl.excise hc l

/-- What all edits together preserve. -/
theorem run (hcl : c.Closed) (hc : c.WellFormed) {es : List Edit} (hes : AllResolve es c) :
    (run es c).Closed := by
  induction es generalizing c with
  | nil => exact hcl
  | cons e es ih => exact ih (hcl.apply hc hes.1) (hc.apply e) hes.2

end Closed

/-- No edit of a closed chain leaves a dangling reference that its caller has not written. -/
theorem Reachable.edits_keep_closed (h : c.Reachable) (hcl : c.Closed) :
    (∀ e : Edit, e.Resolves c → (e.apply c).Closed) ∧
    ∀ es, AllResolve es c → (run es c).Closed := by
  have hc := h.wellFormed
  constructor
  · intro e he
    exact hcl.apply hc he
  · intro es hes
    exact hcl.run hc hes

/-- A goto is written once its target is there, and excised where a phi names it. -/
theorem edits_keep_closed_of_goto :
    let es : List Edit := [.push .nop, .push .nop, .push (.assign ⟨1⟩ (.phi ⟨[⟨.var ⟨0⟩, ⟨1⟩⟩]⟩)),
      .replace ⟨1⟩ (.goto ⟨2⟩), .excise ⟨1⟩]
    AllResolve es empty ∧ (run es empty).Closed ∧
      (run es empty).refsTo ⟨0⟩ = [⟨⟨2⟩, .provenance⟩] := by
  intro es
  have hes : AllResolve es empty := ⟨by decide, by decide, by decide, by decide, by decide, trivial⟩
  obtain ⟨-, hrun⟩ := reachable_empty.edits_keep_closed Closed.empty
  exact ⟨hes, hrun es hes, by rfl⟩

end Chain

end LinearSSA
