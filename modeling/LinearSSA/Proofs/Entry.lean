import LinearSSA.Proofs.Excision

/-! The entry of a chain, its first line. Nothing falls into it, and that control starts there is
not counted as a way in. Once it is taken out control starts at the next line, whether or not the
old entry led there: what it led to matters only where a jump leads to it. -/

namespace LinearSSA.Chain

variable {c c' : Chain} {l f : Label}

/-- Control goes from `l` to `b` and nowhere else. -/
def LeadsOnlyTo (c : Chain) (l b : Label) : Prop := ∀ x, c.Edge l x ↔ x = b

/-- Some statement jumps to `l`. -/
def JumpedTo (c : Chain) (l : Label) : Prop := ∃ a s, c.get? a = some s ∧ l ∈ s.jumpTargets

theorem labels_of_first? (hf : c.first? = some l) : ∃ ls, c.labels = l :: ls :=
  List.head?_eq_some_iff.mp hf

theorem after?_of_first? (hf : c.first? = some l) : c.after? l = c.labels.tail.head? := by
  obtain ⟨ls, hls⟩ := labels_of_first? hf
  simp [after?_eq_follower, hls, follower]

/-- Without the entry, the line after it comes first. -/
theorem Erases.first? {g : Stmt → Stmt} (hr : c.Erases g l c') (hf : c.first? = some l) :
    c'.first? = c.after? l := by
  obtain ⟨ls, hls⟩ := labels_of_first? hf
  rw [after?_of_first? hf, Chain.first?, hr.labels, hls, List.erase_cons_head, List.tail_cons]

/-- A statement leads to the next line only if that is where all its jumps go, and if it has a way
out at all. -/
theorem leadsOnlyTo_after?_iff {t : Stmt} (ht : c.get? l = some t) (ha : c.after? l = some f) :
    c.LeadsOnlyTo l f ↔
      (t.fallsThrough = true ∨ t.jumpTargets ≠ []) ∧ ∀ b ∈ t.jumpTargets, b = f := by
  simp only [LeadsOnlyTo, edge_iff ht, ha, Option.some.injEq]
  constructor
  · intro h
    refine ⟨?_, fun b hb => (h b).mp (.inl hb)⟩
    rcases (h f).mpr rfl with hj | ⟨hfall, -⟩
    · exact .inr (List.ne_nil_of_mem hj)
    · exact .inl hfall
  · rintro ⟨hout, hall⟩ b
    constructor
    · rintro (hb | ⟨-, hb⟩)
      · exact hall b hb
      · exact hb.symm
    · rintro rfl
      rcases hout with hfall | hne
      · exact .inr ⟨hfall, rfl⟩
      · obtain ⟨x, hx⟩ := List.exists_mem_of_ne_nil _ hne
        exact .inl (hall x hx ▸ hx)

namespace WellFormed

/-- No line falls into the entry. -/
theorem entered_first?_iff (hc : c.WellFormed) (hf : c.first? = some l) :
    (∃ a, c.Edge a l) ↔ c.JumpedTo l := by
  obtain ⟨ls, hls⟩ := labels_of_first? hf
  have hpos : c.position? l = some 0 := by
    rw [position?_eq_some_iff hc.nodup, hls]
    rfl
  have hfall : c.fallsInto? l = none := by
    rw [fallsInto?, before?, hpos]
    rfl
  rw [hc.entered_iff, hc.isBranchedTo_iff, hfall, or_iff_left (by simp), JumpedTo]

theorem erased_of_result (hc : c.WellFormed) {o : Outcome Stmt}
    (ho : o = c.remove l ∨ o = c.excise l) {s : Stmt} (hs : o.result = .ok s) :
    ∃ d g, c.landing l = .ok d ∧ c.Erases g l o.chain := by
  rcases ho with rfl | rfl
  · rcases hc.remove_cases l with ⟨e, he⟩ | ⟨d, t, c', hl, -, -, hdone, hr⟩
    · rw [he] at hs
      cases hs
    · rw [hdone]
      exact ⟨d, _, hl, hr⟩
  · obtain ⟨d, hl, hr⟩ := hc.excised_of_result hs
    exact ⟨d, _, hl, hr⟩

/-- A statement that control does not enter can be removed if no phi names it. -/
theorem exists_remove_iff (hc : c.WellFormed) (hl : c.landing l = .ok none) :
    (∃ s, (c.remove l).result = .ok s) ↔ c.provenanceOf l = [] := by
  constructor
  · rintro ⟨s, hs⟩
    rcases hc.remove_cases l with ⟨e, he⟩ | ⟨d, t, c', -, hp, -, -, -⟩
    · rw [he] at hs
      cases hs
    · exact hp
  · intro hp
    obtain ⟨s, c', -, hdone, -⟩ := hc.remove hl hp fun d hd => by cases hd
    exact ⟨s, by rw [hdone]; rfl⟩

theorem exists_excise_iff (hc : c.WellFormed) (hl : c.landing l = .ok none) :
    (∃ s, (c.excise l).result = .ok s) ↔
      ∀ q s, c.get? q = some s → s.phiPreds.count l ≤ 1 := by
  obtain ⟨c₁, hmaps, hl₁, heq⟩ := hc.excise_of_landing hl
  rw [heq, hmaps.wellFormed.exists_remove_iff hl₁, hc.provenanceOf_rerouted hl hmaps]

end WellFormed

/-- Once the entry is taken out, control starts at the next line. This is where the entry led if it
falls through and some statement jumps to it. If none does, the entry can be taken out wherever it
led, unless phi arguments stand in the way. -/
theorem Reachable.entry_moves_to_next_line (h : c.Reachable) (hf : c.first? = some l)
    (hn : 2 ≤ c.size) :
    ∃ t f, c.get? l = some t ∧ c.after? l = some f ∧
      (∀ o, o = c.remove l ∨ o = c.excise l → ∀ s, o.result = .ok s → o.chain.first? = some f ∧
        (c.JumpedTo l → ∃ d, c.LeadsOnlyTo l d ∧ (t.fallsThrough = true → d = f))) ∧
      (c.LeadsOnlyTo l f ↔
        (t.fallsThrough = true ∨ t.jumpTargets ≠ []) ∧ ∀ b ∈ t.jumpTargets, b = f) ∧
      (¬ c.JumpedTo l →
        ((∃ s, (c.remove l).result = .ok s) ↔ ∀ q s, c.get? q = some s → l ∉ s.phiPreds) ∧
        ((∃ s, (c.excise l).result = .ok s) ↔
          ∀ q s, c.get? q = some s → s.phiPreds.count l ≤ 1)) := by
  have hc := h.wellFormed
  have hent := hc.entered_first?_iff hf
  obtain ⟨t, ht⟩ := hc.exists_get? (List.mem_of_mem_head? hf)
  obtain ⟨f, hnext⟩ : ∃ f, c.after? l = some f := by
    rw [after?_of_first? hf, ← Option.isSome_iff_exists, List.isSome_head?,
      ← List.length_pos_iff, List.length_tail]
    exact Nat.sub_pos_of_lt hn
  refine ⟨t, f, ht, hnext, fun o ho s hs => ?_, leadsOnlyTo_after?_iff ht hnext, fun hjump => ?_⟩
  · obtain ⟨d, g, hl, hr⟩ := hc.erased_of_result ho hs
    refine ⟨(hr.first? hf).trans hnext, fun hjump => ?_⟩
    cases d with
    | none => exact absurd (hent.mpr hjump) (not_exists.mpr (hc.landing_eq_none_iff.mp hl).2)
    | some d =>
      have hlands := hc.landing_eq_some_iff.mp hl
      refine ⟨d, hlands.edge_iff, fun hfall => ?_⟩
      exact Option.some.inj ((hlands.after? t ht hfall).symm.trans hnext)
  · have hl : c.landing l = .ok none := by
      rw [hc.landing_eq_none_iff, ← not_exists, hent]
      exact ⟨contains_iff.mpr ⟨t, ht⟩, hjump⟩
    rw [hc.exists_remove_iff hl, hc.exists_excise_iff hl, hc.provenanceOf_eq_nil_iff]
    exact ⟨Iff.rfl, Iff.rfl⟩

/-- A branch to the next line that a later line jumps to. -/
theorem entry_moves_to_next_line_of_branch :
    let c := run [.push (.branch (.var ⟨0⟩) ⟨1⟩), .push .nop, .push (.goto ⟨0⟩)] empty
    c.first? = some ⟨0⟩ ∧ 2 ≤ c.size ∧
      (c.remove ⟨0⟩).result = .ok (.branch (.var ⟨0⟩) ⟨1⟩) ∧
      (c.remove ⟨0⟩).chain.first? = some ⟨1⟩ ∧ c.LeadsOnlyTo ⟨0⟩ ⟨1⟩ := by
  intro c
  have hc : c.Reachable := ⟨_, rfl⟩
  have hf : c.first? = some ⟨0⟩ := by rfl
  have hn : 2 ≤ c.size := by decide
  have hs : (c.remove ⟨0⟩).result = .ok (.branch (.var ⟨0⟩) ⟨1⟩) := by rfl
  have hjump : c.JumpedTo ⟨0⟩ := ⟨⟨2⟩, .goto ⟨0⟩, by rfl, by decide⟩
  obtain ⟨t, f, ht, hnext, hdone, -, -⟩ := hc.entry_moves_to_next_line hf hn
  obtain rfl : .branch (.var ⟨0⟩) ⟨1⟩ = t := Option.some.inj ht
  obtain rfl : ⟨1⟩ = f := Option.some.inj hnext
  obtain ⟨hfirst, hlead⟩ := hdone _ (.inl rfl) _ hs
  obtain ⟨d, hd, hfall⟩ := hlead hjump
  exact ⟨hf, hn, hs, hfirst, hfall rfl ▸ hd⟩

/-- A goto past the next line that nothing jumps to is taken out, and control starts where it did
not go. -/
theorem entry_lost_of_goto :
    let c := run [.push (.goto ⟨2⟩), .push .nop, .push (.ret none)] empty
    c.Reachable ∧ 2 ≤ c.size ∧ c.first? = some ⟨0⟩ ∧
      (c.remove ⟨0⟩).result = .ok (.goto ⟨2⟩) ∧ (c.excise ⟨0⟩).result = .ok (.goto ⟨2⟩) ∧
      ¬ (∀ b, c.Edge ⟨0⟩ b ↔ (c.remove ⟨0⟩).chain.first? = some b) ∧
      ¬ ∀ b, c.Edge ⟨0⟩ b ↔ (c.excise ⟨0⟩).chain.first? = some b := by
  intro c
  have hedge : c.Edge ⟨0⟩ ⟨2⟩ := ⟨.goto ⟨2⟩, by rfl, .inl (by decide)⟩
  refine ⟨⟨_, rfl⟩, by decide, by rfl, by rfl, by rfl, fun h => ?_, fun h => ?_⟩
  · exact absurd ((h ⟨2⟩).mp hedge) (by decide)
  · exact absurd ((h ⟨2⟩).mp hedge) (by decide)

end LinearSSA.Chain
