import LinearSSA.Proofs.Ledger
import LinearSSA.Proofs.Reachable

/-! Statements that are added and removed again. Nothing refers to a new statement, so that its
removal has no jumps to redirect and only takes out what was added, the youngest entries of the
index among it. Afterwards the chain is as it was, the program order and the recorded references
with their order included; only the label is used up. -/

namespace LinearSSA.Chain

variable {c : Chain} {i : Nat} {l : Label} {s : Stmt}

/-- The next label is given to no statement. -/
def skip (c : Chain) : Chain := { c with slots := c.slots ++ [none] }

theorem get?_skip (c : Chain) (k : Label) : c.skip.get? k = c.get? k := by
  simp only [skip, get?]
  rcases Nat.lt_trichotomy k.index c.slots.length with h | h | h
  · rw [List.getElem?_append_left h]
  · simp [h]
  · have hlen : (c.slots ++ [none]).length ≤ k.index := by
      rw [List.length_append, List.length_singleton]
      omega
    rw [List.getElem?_eq_none hlen, List.getElem?_eq_none (Nat.le_of_lt h)]

theorem next_skip (c : Chain) : c.skip.next = c.next + 1 := by
  simp [skip, next]

/-- Where nothing refers to a statement, there is nothing to redirect. -/
theorem evacuate_of_refsTo (h : c.refsTo l = []) (d : Option Label) :
    c.evacuate l d = .done 0 c := by
  cases d with
  | none => rfl
  | some d => rw [evacuate, h]; rfl

namespace WellFormed

theorem refsTo_eq_nil (hc : c.WellFormed)
    (hfree : ∀ k t, c.get? k = some t → ∀ r ∈ t.refs, r.target ≠ l) : c.refsTo l = [] := by
  refine List.eq_nil_iff_forall_not_mem.mpr fun u hu => ?_
  obtain ⟨t, ht, hr⟩ := hc.mem_refsTo.mp hu
  exact hfree u.source t ht _ hr rfl

theorem position?_place (hc : c.WellFormed) (hi : i ≤ c.labels.length) (s : Stmt) :
    (c.place i s).2.position? ⟨c.next⟩ = some i := by
  rw [position?_eq_some_iff (hc.place hi s).nodup, labels_place, List.getElem?_insertIdx_self,
    if_pos hi]

/-- No statement refers to the one that is added. -/
theorem refsTo_place_next (hc : c.WellFormed) (hi : i ≤ c.labels.length)
    (hfree : ∀ k t, c.get? k = some t → ∀ r ∈ t.refs, r.target ≠ ⟨c.next⟩)
    (hself : ∀ r ∈ s.refs, r.target ≠ ⟨c.next⟩) : (c.place i s).2.refsTo ⟨c.next⟩ = [] := by
  refine (hc.place hi s).refsTo_eq_nil fun k t ht => ?_
  rw [get?_place] at ht
  split at ht
  · cases ht
    exact hself
  · exact hfree k t ht

/-- The next label is no holder of an entry yet, so that its entries are the youngest ones. -/
theorem index_detach_place (hc : c.WellFormed)
    (hfree : ∀ k t, c.get? k = some t → ∀ r ∈ t.refs, r.target ≠ ⟨c.next⟩) (s : Stmt) :
    ((c.index.insert ⟨c.next⟩ s).remove ⟨c.next⟩ s).clear ⟨c.next⟩ = c.index := by
  have htight := ((hc.tight.insert ⟨c.next⟩ s).remove ⟨c.next⟩ s).clear ⟨c.next⟩
  refine htight.ext hc.tight fun t => ?_
  have hsource : ∀ u ∈ c.index.refsTo t, u.source ≠ ⟨c.next⟩ := by
    rintro ⟨k, kind⟩ hu rfl
    obtain ⟨u, hu, -⟩ := hc.mem_refsTo.mp hu
    exact Nat.lt_irrefl _ (index_lt_of_get? hu)
  rw [RefIndex.refsTo_clear, RefIndex.refsTo_remove_insert hsource]
  split
  -- the entries for the label itself are dropped, but there were none
  · next ht => exact ht ▸ (hc.refsTo_eq_nil hfree).symm
  · rfl

theorem detach_place (hc : c.WellFormed)
    (hfree : ∀ k t, c.get? k = some t → ∀ r ∈ t.refs, r.target ≠ ⟨c.next⟩) (i : Nat) (s : Stmt) :
    (c.place i s).2.detach i ⟨c.next⟩ s = c.skip := by
  have hslots : (c.slots ++ [some s]).set c.next none = c.slots ++ [none] := by
    rw [next, List.set_append_right _ _ (Nat.le_refl _)]
    simp
  have hindex := hc.index_detach_place hfree s
  simp only [Chain.detach, Chain.place, skip, hslots, hindex, List.eraseIdx_insertIdx_self]

/-- The removal of a new statement is refused if control may run into it and would have nowhere to
go on to; else the label is all that is left of it. -/
theorem remove_place_cases (hc : c.WellFormed) (hi : i ≤ c.labels.length)
    (hfree : ∀ k t, c.get? k = some t → ∀ r ∈ t.refs, r.target ≠ ⟨c.next⟩)
    (hself : ∀ r ∈ s.refs, r.target ≠ ⟨c.next⟩) :
    (∃ e, (c.place i s).2.landing ⟨c.next⟩ = .error e ∧
      (c.place i s).2.remove ⟨c.next⟩ = .refused e (c.place i s).2) ∨
    (∃ d, (c.place i s).2.landing ⟨c.next⟩ = .ok d) ∧
      (c.place i s).2.remove ⟨c.next⟩ = .done s c.skip := by
  have hrefs := hc.refsTo_place_next hi hfree hself
  have hget : (c.place i s).2.get? ⟨c.next⟩ = some s := by rw [get?_place, if_pos rfl]
  rw [Chain.remove, hc.position?_place hi, provenanceOf, hrefs]
  cases (c.place i s).2.landing ⟨c.next⟩ with
  | error e => exact .inl ⟨e, rfl, rfl⟩
  | ok d =>
    refine .inr ⟨⟨d, rfl⟩, ?_⟩
    simp [evacuate_of_refsTo hrefs, cut_of_get? hget, hc.detach_place hfree]

end WellFormed

/-- A statement is added under a label that nothing names yet, and removed again. If that is not
refused, the chain is as it was before, and no jump was redirected on the way. -/
theorem Reachable.remove_undoes_insertion (h : c.Reachable) {e : Edit} {t : Stmt}
    (he : e = .push s ∨ (∃ a, e = .insertAfter a s) ∨ ∃ a, e = .insertBefore a s)
    (hl : e.given? c = some l)
    (hfree : ∀ k u, c.get? k = some u → ∀ r ∈ u.refs, r.target ≠ l)
    (hself : ∀ r ∈ s.refs, r.target ≠ l) (ht : ((e.apply c).remove l).result = .ok t) :
    let c' := ((e.apply c).remove l).chain
    t = s ∧ c'.labels = c.labels ∧ (∀ k, c'.get? k = c.get? k) ∧
      (∀ k, c'.refsTo k = c.refsTo k) ∧ c'.index = c.index ∧ c'.next = c.next + 1 ∧
      ∀ d, (e.apply c).evacuate l d = .done 0 (e.apply c) := by
  intro c'
  have hc := h.wellFormed
  have hins : e.Inserts s c := by
    rcases he with rfl | ⟨a, rfl⟩ | ⟨a, rfl⟩
    · exact Edit.inserts_push s c
    · exact Edit.inserts_insertAfter a s c
    · exact Edit.inserts_insertBefore a s c
  obtain ⟨hnone, -⟩ | ⟨i, hi, hgiven, -, happ⟩ := hins
  · rw [hnone] at hl
    cases hl
  · obtain rfl : ⟨c.next⟩ = l := Option.some.inj (hgiven.symm.trans hl)
    have hdone : (e.apply c).remove ⟨c.next⟩ = .done s c.skip := by
      rw [happ] at ht ⊢
      rcases hc.remove_place_cases hi hfree hself with ⟨f, -, hrefused⟩ | ⟨-, hdone⟩
      · rw [hrefused] at ht
        cases ht
      · exact hdone
    have hchain : c' = c.skip := congrArg Outcome.chain hdone
    rw [hdone] at ht
    refine ⟨(Except.ok.inj ht).symm, ?_⟩
    rw [hchain]
    refine ⟨rfl, c.get?_skip, fun k => rfl, rfl, c.next_skip, fun d => ?_⟩
    rw [happ]
    exact evacuate_of_refsTo (hc.refsTo_place_next hi hfree hself) d

/-- A branch is put between two lines that fall through, and removed again. -/
theorem remove_undoes_insertion_of_branch :
    let c := run [.push (.switch (.var ⟨0⟩) [⟨2⟩, ⟨2⟩] ⟨2⟩), .push .nop, .push (.ret none)] empty
    let s : Stmt := .branch (.var ⟨1⟩) ⟨2⟩
    let e : Edit := .insertAfter ⟨1⟩ s
    e.given? c = some ⟨3⟩ ∧ (∀ k u, c.get? k = some u → ∀ r ∈ u.refs, r.target ≠ ⟨3⟩) ∧
      (∀ r ∈ s.refs, r.target ≠ ⟨3⟩) ∧ (e.apply c).refsTo ⟨2⟩ ≠ c.refsTo ⟨2⟩ ∧
      ((e.apply c).remove ⟨3⟩).result = .ok s ∧
      ((e.apply c).remove ⟨3⟩).chain.labels = c.labels ∧
      ((e.apply c).remove ⟨3⟩).chain.refsTo ⟨2⟩ = c.refsTo ⟨2⟩ := by
  intro c s e
  have hc : c.Reachable := ⟨_, rfl⟩
  have hl : e.given? c = some ⟨3⟩ := by rfl
  have hfree : ∀ k u, c.get? k = some u → ∀ r ∈ u.refs, r.target ≠ ⟨3⟩ := by
    have hlines : ∀ x ∈ c.lines, ∀ r ∈ x.stmt.refs, r.target ≠ ⟨3⟩ := by decide
    intro k u hu
    exact hlines ⟨k, u⟩ (mem_lines.mpr ⟨hc.wellFormed.mem_labels_of_get? hu, hu⟩)
  have hself : ∀ r ∈ s.refs, r.target ≠ ⟨3⟩ := by decide
  have ht : ((e.apply c).remove ⟨3⟩).result = .ok s := by rfl
  obtain ⟨-, hlabels, -, hrefs, -⟩ :=
    hc.remove_undoes_insertion (.inr (.inl ⟨⟨1⟩, rfl⟩)) hl hfree hself ht
  exact ⟨hl, hfree, hself, by decide, ht, hlabels, hrefs ⟨2⟩⟩

end LinearSSA.Chain
