import LinearSSA.Proofs.Landing

/-! The removal of a statement from a well-formed chain. It is done if no phi names the
statement, the statement has a landing, and the landing is a statement where there is a jump to
redirect; then the jumps go to the landing and nothing names the statement any more. Otherwise it
is refused and leaves the chain alone. -/

namespace LinearSSA.Chain

/-- The labels are those of `c` without `l`, and under each of them `f` of its statement stands. -/
structure Erases (f : Stmt → Stmt) (c : Chain) (l : Label) (c' : Chain) : Prop where
  wellFormed : c'.WellFormed
  labels : c'.labels = c.labels.erase l
  get? : ∀ k, c'.get? k = if k = l then none else (c.get? k).map f

theorem Erases.contains_iff {f : Stmt → Stmt} {c c' : Chain} {l : Label} (h : c.Erases f l c')
    (a : Label) : c'.contains a = true ↔ a ≠ l ∧ c.contains a = true := by
  rw [contains, contains, h.get?]
  by_cases ha : a = l <;> simp [ha]

/-- What changes before the removal and what changes with it are done one after the other. -/
theorem Maps.erases {f g : Stmt → Stmt} {c c₁ c' : Chain} {l : Label} (h : c.Maps f c₁)
    (h' : c₁.Erases g l c') : c.Erases (fun s => g (f s)) l c' where
  wellFormed := h'.wellFormed
  labels := by rw [h'.labels, h.labels]
  get? k := by
    rw [h'.get?, h.get?, Option.map_map]
    rfl

namespace WellFormed

variable {c : Chain} {l : Label}

/-- A statement that can be removed does not jump to itself. -/
theorem not_edge_self (hc : c.WellFormed) {d : Option Label} (hl : c.landing l = .ok d) :
    ¬ c.Edge l l := by
  cases d with
  | none => exact (hc.landing_eq_none_iff.mp hl).2 l
  | some d =>
    have h := hc.landing_eq_some_iff.mp hl
    exact fun he => h.ne ((h.edge_iff l).mp he).symm

/-- Whatever the landing, no redirected jump leads to `l`. -/
theorem not_mem_jumpTargets_retarget (hc : c.WellFormed) {d : Option Label}
    (hl : c.landing l = .ok d) {k : Label} {s : Stmt} (hs : c.get? k = some s) :
    l ∉ (s.retarget l (d.getD l)).jumpTargets := by
  cases d with
  | none =>
    rw [Option.getD_none, Stmt.retarget_self]
    exact fun h => (hc.landing_eq_none_iff.mp hl).2 k ⟨s, hs, .inl h⟩
  | some d =>
    exact Stmt.not_mem_jumpTargets_retarget (hc.landing_eq_some_iff.mp hl).ne.symm s

/-- No statement refers to `l` when its jumps are redirected and no phi names it. -/
theorem target_ne_of_mem_refs (hc : c.WellFormed) {d : Option Label} (hl : c.landing l = .ok d)
    (hp : c.provenanceOf l = []) {k : Label} {s : Stmt} (hs : c.get? k = some s) {r : Ref}
    (hr : r ∈ (s.retarget l (d.getD l)).refs) : r.target ≠ l := by
  obtain ⟨t, kind⟩ := r
  rintro rfl
  cases kind with
  | jump => exact hc.not_mem_jumpTargets_retarget hl hs ((Stmt.mem_refs_jump _ _).mp hr)
  | provenance =>
    refine hc.provenanceOf_eq_nil_iff.mp hp k s hs ?_
    simpa [Stmt.phiPreds] using (Stmt.mem_refs_provenance _ _).mp hr

/-- The jumps to `l` go to its landing, if there are any. -/
theorem evacuate (hc : c.WellFormed) {d : Option Label} (hl : c.landing l = .ok d)
    (hp : c.provenanceOf l = [])
    (hd : ∀ d', d = some d' → c.isBranchedTo l = true → c.contains d' = true) :
    ∃ n c', c.evacuate l d = .done n c' ∧ c.Maps (·.retarget l (d.getD l)) c' := by
  cases d with
  | none => exact ⟨0, c, rfl, hc.maps_self fun k s _ => Stmt.retarget_self l s⟩
  | some d =>
    by_cases hr : (c.refsTo l).isEmpty = true
    · refine ⟨0, c, by rw [Chain.evacuate, if_pos hr], hc.maps_self fun k s hs => ?_⟩
      refine Stmt.retarget_of_not_mem (fun h => ?_) d
      have hm := hc.mem_refsTo.mpr ⟨s, hs, (s.mem_refs_jump l).mpr h⟩
      simp [List.isEmpty_iff.mp hr] at hm
    · obtain ⟨s, hs⟩ := get?_of_landing hl
      have hb : c.isBranchedTo l = true := by
        obtain ⟨u, hu⟩ := List.exists_mem_of_ne_nil _ (mt List.isEmpty_iff.mpr hr)
        refine List.any_eq_true.mpr ⟨u, hu, ?_⟩
        by_contra hj
        have hm : u ∈ c.provenanceOf l := List.mem_filter.mpr ⟨hu, by simpa using hj⟩
        simp [hp] at hm
      obtain ⟨n, c', hdone, hmaps⟩ := hc.retarget (contains_iff.mpr ⟨s, hs⟩) (hd d rfl hb)
      exact ⟨n, c', by rw [Chain.evacuate, if_neg hr, hdone], hmaps⟩

section Evacuated

variable {d : Option Label} {c' : Chain} {s : Stmt}

/-- The evacuation leaves the statement of `l` alone, which has no jump to itself. -/
theorem get?_evacuated (hc : c.WellFormed) (hl : c.landing l = .ok d)
    (hm : c.Maps (·.retarget l (d.getD l)) c') (hs : c.get? l = some s) : c'.get? l = some s := by
  have hself : s.retarget l (d.getD l) = s :=
    Stmt.retarget_of_not_mem (fun h => hc.not_edge_self hl ⟨s, hs, .inl h⟩) _
  rw [hm.get?, hs, Option.map_some, hself]

/-- After the evacuation nothing refers to `l`. -/
theorem target_ne_of_evacuated (hc : c.WellFormed) (hl : c.landing l = .ok d)
    (hp : c.provenanceOf l = []) (hm : c.Maps (·.retarget l (d.getD l)) c') {k : Label} {t : Stmt}
    (hk : c'.get? k = some t) {r : Ref} (hr : r ∈ t.refs) : r.target ≠ l := by
  rw [hm.get?] at hk
  obtain ⟨t₀, hk₀, rfl⟩ := Option.map_eq_some_iff.mp hk
  exact hc.target_ne_of_mem_refs hl hp hk₀ hr

/-- Once its jumps are evacuated, `l` can be taken out. -/
theorem detach_evacuated (hc : c.WellFormed) (hl : c.landing l = .ok d)
    (hp : c.provenanceOf l = []) (hm : c.Maps (·.retarget l (d.getD l)) c')
    {i : Nat} (hi : c.position? l = some i) (hs : c.get? l = some s) :
    c'.cut i l = .done s (c'.detach i l s) ∧
      c.Erases (·.retarget l (d.getD l)) l (c'.detach i l s) := by
  have hs' := hc.get?_evacuated hl hm hs
  have hi' : c'.position? l = some i := by rw [position?, hm.labels]; exact hi
  have hfree : ∀ k t, c'.get? k = some t → ∀ r ∈ t.refs, r.target ≠ l :=
    fun k t hk r hr => hc.target_ne_of_evacuated hl hp hm hk hr
  refine ⟨cut_of_get? hs' i, hm.wellFormed.detach hs' hi' hfree, ?_, fun k => ?_⟩
  · rw [← hm.labels]
    exact eraseIdx_position? hi'
  · rw [get?_detach hs', hm.get?]

end Evacuated

/-- Once the jumps go to the landing, the removal is done. -/
theorem remove_of_evacuate (hc : c.WellFormed) {d : Option Label} (hl : c.landing l = .ok d)
    (hp : c.provenanceOf l = []) {n : Nat} {c₁ : Chain} (hev : c.evacuate l d = .done n c₁)
    (hm : c.Maps (·.retarget l (d.getD l)) c₁) :
    ∃ s c', c.get? l = some s ∧ c.remove l = .done s c' ∧
      c.Erases (·.retarget l (d.getD l)) l c' := by
  obtain ⟨s, hs⟩ := get?_of_landing hl
  obtain ⟨i, hi⟩ := hc.exists_position? hs
  obtain ⟨hcut, hrem⟩ := hc.detach_evacuated hl hp hm hi hs
  refine ⟨s, c₁.detach i l s, hs, ?_, hrem⟩
  rw [Chain.remove, hi]
  simp [hp, hl, hev, hcut]

theorem remove (hc : c.WellFormed) {d : Option Label} (hl : c.landing l = .ok d)
    (hp : c.provenanceOf l = [])
    (hd : ∀ d', d = some d' → c.isBranchedTo l = true → c.contains d' = true) :
    ∃ s c', c.get? l = some s ∧ c.remove l = .done s c' ∧
      c.Erases (·.retarget l (d.getD l)) l c' := by
  obtain ⟨n, c₁, hev, hm⟩ := hc.evacuate hl hp hd
  exact hc.remove_of_evacuate hl hp hev hm

/-! ### Refusals -/

theorem remove_of_provenance {u : Use} (hs : l ∈ c.labels) (hu : u ∈ c.provenanceOf l) :
    c.remove l = .refused (.stillReferenced l (c.provenanceOf l).length) c := by
  obtain ⟨i, hi⟩ := Option.isSome_iff_exists.mp (position?_isSome.mpr hs)
  rw [Chain.remove, hi]
  simp [List.ne_nil_of_mem hu]

/-- Jumps cannot be redirected to a label without a statement. -/
theorem evacuate_of_dangling {d : Label} (hl : c.landing l = .ok (some d))
    (hb : c.isBranchedTo l = true) (hd : c.contains d = false) :
    c.evacuate l (some d) = .refused (.unknownStmt d) c := by
  obtain ⟨s, hs⟩ := get?_of_landing hl
  have hr : (c.refsTo l).isEmpty = false := by
    obtain ⟨u, hu, -⟩ := List.any_eq_true.mp hb
    exact List.isEmpty_eq_false_iff.mpr (List.ne_nil_of_mem hu)
  simp [Chain.evacuate, hr, Chain.retarget, contains_iff.mpr ⟨s, hs⟩, hd]

theorem remove_of_dangling (hc : c.WellFormed) {d : Label} (hl : c.landing l = .ok (some d))
    (hp : c.provenanceOf l = []) (hb : c.isBranchedTo l = true) (hd : c.contains d = false) :
    c.remove l = .refused (.unknownStmt d) c := by
  obtain ⟨s, hs⟩ := get?_of_landing hl
  obtain ⟨i, hi⟩ := hc.exists_position? hs
  rw [Chain.remove, hi]
  simp [hp, hl, evacuate_of_dangling hl hb hd]

/-- The jumps to `l` go to its landing, or the landing is missing and nothing changes. -/
theorem evacuate_cases (hc : c.WellFormed) {d : Option Label} (hl : c.landing l = .ok d)
    (hp : c.provenanceOf l = []) :
    (∃ d', d = some d' ∧ c.isBranchedTo l = true ∧ c.contains d' = false ∧
      c.evacuate l d = .refused (.unknownStmt d') c) ∨
      ∃ n c', c.evacuate l d = .done n c' ∧ c.Maps (·.retarget l (d.getD l)) c' := by
  by_cases hd : ∀ d', d = some d' → c.isBranchedTo l = true → c.contains d' = true
  · exact .inr (hc.evacuate hl hp hd)
  · push Not at hd
    obtain ⟨d', rfl, hb, hd'⟩ := hd
    have hmissing : c.contains d' = false := by simpa using hd'
    exact .inl ⟨d', rfl, hb, hmissing, evacuate_of_dangling hl hb hmissing⟩

/-- A removal is refused and changes nothing, or it is done. -/
theorem remove_cases (hc : c.WellFormed) (l : Label) :
    (∃ e, c.remove l = .refused e c) ∨
      ∃ d s c', c.landing l = .ok d ∧ c.provenanceOf l = [] ∧ c.get? l = some s ∧
        c.remove l = .done s c' ∧ c.Erases (·.retarget l (d.getD l)) l c' := by
  cases hi : c.position? l with
  | none => exact .inl ⟨.unknownStmt l, by rw [Chain.remove, hi]⟩
  | some i =>
    have hmem : l ∈ c.labels := position?_isSome.mp (by simp [hi])
    rcases List.eq_nil_or_concat (c.provenanceOf l) with hp | ⟨us, u, hu⟩
    · cases hl : c.landing l with
      | error e => exact .inl ⟨e, by rw [Chain.remove, hi]; simp [hp, hl]⟩
      | ok d =>
        rcases hc.evacuate_cases hl hp with ⟨d', rfl, hb, hd', -⟩ | ⟨n, c₁, hev, hm⟩
        · exact .inl ⟨_, hc.remove_of_dangling hl hp hb hd'⟩
        · obtain ⟨s, c', hs, hdone, hrem⟩ := hc.remove_of_evacuate hl hp hev hm
          exact .inr ⟨d, s, c', rfl, hp, hs, hdone, hrem⟩
    · exact .inl ⟨_, remove_of_provenance (u := u) hmem (by simp [hu])⟩

end WellFormed

end LinearSSA.Chain
