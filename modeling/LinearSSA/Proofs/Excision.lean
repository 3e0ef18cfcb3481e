import LinearSSA.Proofs.Reachable

/-! Excision. Its first check foresees every refusal for the sake of control flow, and the
rerouting in between is never refused. The removal at the end still may be: where a phi has two
arguments from the statement, since only the first is rerouted, and where jumps would have to be
redirected to a label without a statement. Then the phis have been rerouted already; in every
other case a refused excision changes nothing. -/

namespace LinearSSA

/-- One of the arguments from `l` is lost. -/
theorem Stmt.count_phiPreds_reroute {s : Stmt} {l : Label} {preds : List Label} (hp : l ∉ preds) :
    (s.mapPhi (·.reroute l preds)).phiPreds.count l = s.phiPreds.count l - 1 := by
  rw [phiPreds, phiPreds, phi?_mapPhi]
  cases s.phi? with
  | none => rfl
  | some φ => exact Phi.count_preds_reroute hp

namespace Chain

variable {c c' : Chain} {l : Label} {d : Option Label}

/-- The phi arguments from `l` come from its control predecessors, and the jumps to `l` go to
`new`. -/
def bypass (c : Chain) (l new : Label) (s : Stmt) : Stmt :=
  (s.mapPhi (·.reroute l (c.controlPreds l))).retarget l new

namespace WellFormed

/-- No control goes from a statement with a landing to itself. -/
theorem not_mem_controlPreds (hc : c.WellFormed) (hl : c.landing l = .ok d) :
    l ∉ c.controlPreds l :=
  mt hc.mem_controlPreds.mp (hc.not_edge_self hl)

/-- An excision that is done reroutes all phi arguments from `l` and then removes `l`. -/
theorem removed_of_result (hc : c.WellFormed) {s : Stmt} (hs : (c.excise l).result = .ok s) :
    ∃ d c₁, c.landing l = .ok d ∧ c.Maps (·.mapPhi (·.reroute l (c.controlPreds l))) c₁ ∧
      c₁.provenanceOf l = [] ∧ c₁.Erases (·.retarget l (d.getD l)) l (c.excise l).chain := by
  cases hl : c.landing l with
  | error e =>
    rw [excise, hl] at hs
    cases hs
  | ok d =>
    obtain ⟨c₁, hmaps, hl₁, heq⟩ := hc.excise_of_landing hl
    rw [heq] at hs ⊢
    rcases hmaps.wellFormed.remove_cases l with ⟨e, he⟩ | ⟨d', s', c', hl', hp, -, hdone, hrem⟩
    · rw [he] at hs
      cases hs
    · obtain rfl : d = d' := Except.ok.inj (hl₁.symm.trans hl')
      have hchain : (c₁.remove l).chain = c' := by rw [hdone, Outcome.chain_done]
      rw [hchain]
      exact ⟨d, c₁, rfl, hmaps, hp, hrem⟩

theorem excised_of_result (hc : c.WellFormed) {s : Stmt} (hs : (c.excise l).result = .ok s) :
    ∃ d, c.landing l = .ok d ∧ c.Erases (c.bypass l (d.getD l)) l (c.excise l).chain := by
  obtain ⟨d, c₁, hl, hmaps, -, hrem⟩ := hc.removed_of_result hs
  exact ⟨d, hl, hmaps.erases hrem⟩

end WellFormed

/-! ### Refusals that come too late -/

/-- What can be read off two chains is the same: the program order, the statements, and the
recorded references. -/
structure Agrees (c c' : Chain) : Prop where
  labels : c'.labels = c.labels
  get? : ∀ k, c'.get? k = c.get? k
  refsTo : ∀ t, c'.refsTo t = c.refsTo t

/-- The flow of control allows to take `l` out and there are phis to reroute, but the removal is
going to be refused: a phi keeps an argument from `l`, or the landing of a jump is missing. -/
def Strands (c : Chain) (l : Label) : Prop :=
  ∃ d, c.landing l = .ok d ∧ (∃ p s, c.get? p = some s ∧ l ∈ s.phiPreds) ∧
    ((∃ p s, c.get? p = some s ∧ 2 ≤ s.phiPreds.count l) ∨
      ∃ t, d = some t ∧ c.contains t = false ∧ ∃ a s, c.get? a = some s ∧ l ∈ s.jumpTargets)

namespace WellFormed

/-- A phi with two arguments from `l` keeps one of them. -/
theorem provenanceOf_rerouted (hc : c.WellFormed) (hl : c.landing l = .ok d) {c₁ : Chain}
    (hm : c.Maps (·.mapPhi (·.reroute l (c.controlPreds l))) c₁) :
    c₁.provenanceOf l = [] ↔ ∀ p s, c.get? p = some s → s.phiPreds.count l ≤ 1 := by
  have hnot := hc.not_mem_controlPreds hl
  rw [hm.wellFormed.provenanceOf_eq_nil_iff]
  constructor
  · intro h p s hs
    have hp := h p _ (by rw [hm.get?, hs, Option.map_some])
    rw [← List.count_eq_zero, Stmt.count_phiPreds_reroute hnot] at hp
    omega
  · intro h p s₁ hs₁
    rw [hm.get?] at hs₁
    obtain ⟨s, hs, rfl⟩ := Option.map_eq_some_iff.mp hs₁
    have hp := h p s hs
    rw [← List.count_eq_zero, Stmt.count_phiPreds_reroute hnot]
    omega

/-- No phi had two arguments from a statement that was excised. -/
theorem count_phiPreds_of_result (hc : c.WellFormed) {s : Stmt}
    (hs : (c.excise l).result = .ok s) {p : Label} {t : Stmt} (ht : c.get? p = some t) :
    t.phiPreds.count l ≤ 1 := by
  obtain ⟨d, c₁, hl, hmaps, hp, -⟩ := hc.removed_of_result hs
  exact (hc.provenanceOf_rerouted hl hmaps).mp hp p t ht

/-- With a landing, an excision is done if no phi has two arguments from the statement and the
landing is a statement where there is a jump to redirect. -/
theorem excise_of_one_argument (hc : c.WellFormed) (hl : c.landing l = .ok d)
    (hone : ∀ p s, c.get? p = some s → s.phiPreds.count l ≤ 1)
    (hd : ∀ t, d = some t → c.isBranchedTo l = true → c.contains t = true) :
    ∃ s c', c.excise l = .done s c' := by
  obtain ⟨c₁, hmaps, hl₁, heq⟩ := hc.excise_of_landing hl
  have hp₁ := (hc.provenanceOf_rerouted hl hmaps).mpr hone
  have hd₁ : ∀ t, d = some t → c₁.isBranchedTo l = true → c₁.contains t = true := by
    intro t ht hb
    rw [hmaps.isBranchedTo (Stmt.jumpTargets_mapPhi _) hc] at hb
    rw [hmaps.contains]
    exact hd t ht hb
  obtain ⟨s, c', -, hdone, -⟩ := hmaps.wellFormed.remove hl₁ hp₁ hd₁
  exact ⟨s, c', heq.trans hdone⟩

/-- Unless it strands, a refused excision changes nothing. -/
theorem chain_of_not_strands (hc : c.WellFormed) (h : ¬ c.Strands l) {e : Fault}
    (he : (c.excise l).result = .error e) : (c.excise l).chain = c := by
  cases hl : c.landing l with
  | error e =>
    rw [excise, hl]
    rfl
  | ok d =>
    by_cases hp : c.provenanceOf l = []
    · have hstep : c.excise l = c.remove l := by
        rw [excise, hl, reroute_of_provenanceOf (contains_iff.mpr (get?_of_landing hl)) hp]
        rfl
      rw [hstep] at he ⊢
      rcases hc.remove_cases l with ⟨e', he'⟩ | ⟨d', s, c', -, -, -, hdone, -⟩
      · rw [he', Outcome.chain_refused]
      · rw [hdone] at he
        cases he
    · -- there are phis to reroute, but the removal goes through
      have hphi : ∃ p s, c.get? p = some s ∧ l ∈ s.phiPreds := by
        rw [hc.provenanceOf_eq_nil_iff] at hp
        push Not at hp
        exact hp
      have hone : ∀ p s, c.get? p = some s → s.phiPreds.count l ≤ 1 := by
        intro p s hs
        by_contra hcount
        exact h ⟨d, hl, hphi, .inl ⟨p, s, hs, by omega⟩⟩
      have hd : ∀ t, d = some t → c.isBranchedTo l = true → c.contains t = true := by
        intro t ht hb
        by_contra hct
        exact h ⟨d, hl, hphi, .inr ⟨t, ht, by simpa using hct, hc.isBranchedTo_iff.mp hb⟩⟩
      obtain ⟨s, c', hdone⟩ := hc.excise_of_one_argument hl hone hd
      rw [hdone] at he
      cases he

/-- Where it strands, an excision is refused after the phis were rerouted. -/
theorem excise_of_strands (hc : c.WellFormed) (h : c.Strands l) :
    ∃ e c₁, c.excise l = .refused e c₁ ∧ ∃ p, c₁.get? p ≠ c.get? p := by
  obtain ⟨d, hl, ⟨p, s, hs, hp⟩, hcause⟩ := h
  obtain ⟨c₁, hmaps, hl₁, heq⟩ := hc.excise_of_landing hl
  have hchanged : c₁.get? p ≠ c.get? p := by
    rw [hmaps.get?, hs, Option.map_some]
    intro hsame
    have hcount := Stmt.count_phiPreds_reroute (s := s) (hc.not_mem_controlPreds hl)
    have hpos := List.count_pos_iff.mpr hp
    rw [Option.some.inj hsame] at hcount
    omega
  by_cases hp₁ : c₁.provenanceOf l = []
  · rcases hcause with ⟨q, t, ht, hcount⟩ | ⟨t, rfl, ht, hj⟩
    · have := (hc.provenanceOf_rerouted hl hmaps).mp hp₁ q t ht
      omega
    · have hb : c₁.isBranchedTo l = true := by
        rw [hmaps.isBranchedTo (Stmt.jumpTargets_mapPhi _) hc]
        exact hc.isBranchedTo_iff.mpr hj
      have ht₁ : c₁.contains t = false := by rw [hmaps.contains, ht]
      exact ⟨_, c₁, heq.trans (hmaps.wellFormed.remove_of_dangling hl₁ hp₁ hb ht₁), p, hchanged⟩
  · obtain ⟨u, hu⟩ := List.exists_mem_of_ne_nil _ hp₁
    obtain ⟨s₁, hs₁⟩ := get?_of_landing hl₁
    exact ⟨_, c₁, heq.trans (remove_of_provenance (hmaps.wellFormed.mem_labels_of_get? hs₁) hu), p,
      hchanged⟩

end WellFormed

/-- A refused excision leaves the chain as it was, exactly where it does not strand. -/
theorem Reachable.excise_atomic_iff (h : c.Reachable) (l : Label) :
    (∀ e, (c.excise l).result = .error e → c.Agrees (c.excise l).chain) ↔ ¬ c.Strands l := by
  have hc := h.wellFormed
  constructor
  · intro hatomic hstrands
    obtain ⟨e, c₁, heq, p, hp⟩ := hc.excise_of_strands hstrands
    rw [heq] at hatomic
    exact hp ((hatomic e rfl).get? p)
  · intro hnot e he
    rw [hc.chain_of_not_strands hnot he]
    exact ⟨rfl, fun k => rfl, fun t => rfl⟩

/-- A phi with two arguments from the statement is left with one of them. -/
theorem not_atomic_of_two_arguments :
    let c := run [.push .nop, .push .nop, .push (.assign ⟨2⟩
      (.phi ⟨[⟨.var ⟨1⟩, ⟨1⟩⟩, ⟨.var ⟨3⟩, ⟨1⟩⟩]⟩))] empty
    c.Strands ⟨1⟩ ∧ ¬ ∀ e, (c.excise ⟨1⟩).result = .error e → c.Agrees (c.excise ⟨1⟩).chain := by
  intro c
  have hstrands : c.Strands ⟨1⟩ :=
    ⟨some ⟨2⟩, by rfl, ⟨⟨2⟩, _, by rfl, by decide⟩, .inl ⟨⟨2⟩, _, by rfl, by decide⟩⟩
  have hc : c.Reachable := ⟨_, rfl⟩
  exact ⟨hstrands, fun hall => (hc.excise_atomic_iff ⟨1⟩).mp hall hstrands⟩

end Chain

end LinearSSA
