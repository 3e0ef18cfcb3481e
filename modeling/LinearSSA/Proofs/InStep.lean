import LinearSSA.Proofs.Excision
import LinearSSA.Proofs.Flow

/-! Phis in step with control flow: the arguments of a phi come from the statements that control
enters it from. An excision that is done keeps a phi in step. The phi loses its argument from the
excised statement and gains one from each statement that control entered that one from, and these
are the statements that the redirected jumps and the closed gap let enter the phi. -/

namespace LinearSSA

namespace Phi

variable {φ : Phi} {l p : Label} {preds : List Label}

/-- With at most one argument from `l`, none is left. -/
theorem mem_preds_reroute (hcount : φ.preds.count l ≤ 1) :
    p ∈ (φ.reroute l preds).preds ↔ p ∈ φ.preds ∧ p ≠ l ∨ l ∈ φ.preds ∧ p ∈ preds := by
  by_cases hl : l ∈ φ.preds
  · have herase : p ∈ φ.preds.erase l ↔ p ∈ φ.preds ∧ p ≠ l := by
      by_cases hp : p = l
      · subst hp
        have hnot : p ∉ φ.preds.erase p := by
          rw [← List.count_eq_zero, List.count_erase_self]
          omega
        simp [hnot]
      · simp [List.mem_erase_of_ne hp, hp]
    simp [preds_reroute hl, herase, hl]
  · have hne : p ∈ φ.preds → p ≠ l := fun hp he => hl (he ▸ hp)
    simpa [reroute_of_not_mem hl, hl] using hne

end Phi

namespace Chain

variable {c c' : Chain} {l q : Label} {d : Option Label}

/-! ### Excised statements -/

theorem jumpTargets_bypass (c : Chain) (l new : Label) (s : Stmt) :
    (c.bypass l new s).jumpTargets = s.jumpTargets.map (Stmt.redirect l new) := by
  simp [bypass]

theorem fallsThrough_bypass (c : Chain) (l new : Label) (s : Stmt) :
    (c.bypass l new s).fallsThrough = s.fallsThrough := by
  simp [bypass]

theorem phi?_bypass (c : Chain) (l new : Label) (s : Stmt) :
    (c.bypass l new s).phi? = s.phi?.map (·.reroute l (c.controlPreds l)) := by
  simp [bypass]

/-! ### One excision -/

/-- Control goes from `p` to `q` at once, neither of which is `l`, or by way of `l`. -/
def Around (c : Chain) (l p q : Label) : Prop :=
  c.Edge p q ∧ p ≠ l ∧ q ≠ l ∨ c.Edge p l ∧ c.Edge l q

/-- The statement under `q` is a phi with an argument from each statement that control enters it
from, and with no other arguments. -/
def InStepAt (c : Chain) (q : Label) : Prop :=
  ∃ s φ, c.get? q = some s ∧ s.phi? = some φ ∧ ∀ p, p ∈ φ.preds ↔ c.Edge p q

/-- Every phi is in step. -/
def InStep (c : Chain) : Prop := ∀ q, c.isPhiAt q = true → c.InStepAt q

namespace WellFormed

/-- Control that went on by way of `l` goes on at once afterwards. -/
theorem edge_excised_iff (hc : c.WellFormed) (hl : c.landing l = .ok d)
    (hr : c.Erases (c.bypass l (d.getD l)) l c') (p q : Label) : c'.Edge p q ↔ c.Around l p q := by
  rw [hc.edge_erased (jumpTargets_bypass c l _) (fallsThrough_bypass c l _) hl hr, Around]
  have hself := hc.not_edge_self hl
  constructor
  · rintro ⟨hp, ⟨hpq, hq⟩ | ⟨hpl, hd⟩⟩
    · exact .inl ⟨hpq, hp, hq⟩
    · exact .inr ⟨hpl, (hc.edge_of_landing hl hpl q).mpr hd⟩
  · rintro (⟨hpq, hp, hq⟩ | ⟨hpl, hlq⟩)
    · exact ⟨hp, .inl ⟨hpq, hq⟩⟩
    · have hp : p ≠ l := fun he => hself (he ▸ hpl)
      exact ⟨hp, .inr ⟨hpl, (hc.edge_of_landing hl hpl q).mp hlq⟩⟩

theorem inStepAt_excised (hc : c.WellFormed) {s : Stmt} (hs : (c.excise l).result = .ok s)
    (hq : q ≠ l) (h : c.InStepAt q) : (c.excise l).chain.InStepAt q := by
  obtain ⟨d, hl, hr⟩ := hc.excised_of_result hs
  obtain ⟨t, φ, ht, hφ, hpreds⟩ := h
  refine ⟨c.bypass l (d.getD l) t, φ.reroute l (c.controlPreds l), ?_, ?_, fun p => ?_⟩
  · rw [hr.get?, if_neg hq, ht, Option.map_some]
  · rw [phi?_bypass, hφ, Option.map_some]
  · have hcount : φ.preds.count l ≤ 1 := by
      have h := hc.count_phiPreds_of_result hs ht
      rwa [Stmt.phiPreds, hφ] at h
    rw [Phi.mem_preds_reroute hcount, hpreds, hpreds, hc.mem_controlPreds,
      hc.edge_excised_iff hl hr, Around, and_iff_left hq, and_comm (a := c.Edge l q)]

/-- The phis of what is left were phis before. -/
theorem inStep_excised (hc : c.WellFormed) {s : Stmt} (hs : (c.excise l).result = .ok s)
    (h : c.InStep) : (c.excise l).chain.InStep := by
  obtain ⟨d, hl, hr⟩ := hc.excised_of_result hs
  intro q hphi
  obtain ⟨t', φ', ht', hφ'⟩ := isPhiAt_iff.mp hphi
  rw [hr.get?] at ht'
  split at ht'
  · cases ht'
  next hq =>
  obtain ⟨t, ht, rfl⟩ := Option.map_eq_some_iff.mp ht'
  rw [phi?_bypass] at hφ'
  obtain ⟨φ, hφ, rfl⟩ := Option.map_eq_some_iff.mp hφ'
  exact hc.inStepAt_excised hs hq (h q (isPhiAt_iff.mpr ⟨t, φ, ht, hφ⟩))

end WellFormed

/-! ### Several excisions -/

/-- Excise one statement after another, up to the first one that is refused. -/
def exciseEach : List Label → Chain → Outcome Unit
  | [], c => .done () c
  | l :: ls, c => (c.excise l).bind fun _ c => exciseEach ls c

theorem WellFormed.inStep_exciseEach (hc : c.WellFormed) (h : c.InStep) {ls : List Label}
    (hls : (exciseEach ls c).result = .ok ()) : (exciseEach ls c).chain.InStep := by
  induction ls generalizing c with
  | nil => exact h
  | cons l ls ih =>
    cases hs : (c.excise l).result with
    | error e =>
      rw [exciseEach, Outcome.bind, hs] at hls
      cases hls
    | ok s =>
      have hstep : exciseEach (l :: ls) c = exciseEach ls (c.excise l).chain := by
        rw [exciseEach, Outcome.bind, hs]
      rw [hstep] at hls ⊢
      exact ih (hc.chain_excise l) (hc.inStep_excised hs h) hls

/-- An excision that is done keeps every other phi in step that was in step before. Hence all phis
stay in step however many statements are excised. -/
theorem Reachable.excise_keeps_in_step (h : c.Reachable) :
    (∀ l s q, (c.excise l).result = .ok s → q ≠ l → c.InStepAt q →
      (c.excise l).chain.InStepAt q) ∧
    (c.InStep → ∀ ls, (exciseEach ls c).result = .ok () → (exciseEach ls c).chain.InStep) := by
  have hc := h.wellFormed
  constructor
  · intro l s q hs hq hphi
    exact hc.inStepAt_excised hs hq hphi
  · intro hphis ls hls
    exact hc.inStep_exciseEach hphis hls

/-- A goto to a phi that two branches jump to, each of which gets the argument of the goto, and then
the line before another goto to the phi. -/
theorem excise_keeps_in_step_of_goto :
    let c := run [.push (.branch (.var ⟨0⟩) ⟨4⟩), .push (.branch (.var ⟨1⟩) ⟨4⟩),
      .push (.assign ⟨3⟩ (.copy (.const (.int 2)))), .push (.goto ⟨6⟩), .push (.goto ⟨6⟩),
      .push (.ret none), .push (.assign ⟨4⟩ (.phi ⟨[⟨.var ⟨3⟩, ⟨3⟩⟩, ⟨.const (.int 1), ⟨4⟩⟩]⟩)),
      .push (.ret (some (.var ⟨4⟩)))] empty
    c.InStep ∧ (c.excise ⟨4⟩).chain.InStepAt ⟨6⟩ ∧ (c.excise ⟨4⟩).chain.contains ⟨4⟩ = false ∧
      (c.excise ⟨4⟩).chain.get? ⟨6⟩ = some (.assign ⟨4⟩ (.phi ⟨[⟨.var ⟨3⟩, ⟨3⟩⟩,
        ⟨.const (.int 1), ⟨0⟩⟩, ⟨.const (.int 1), ⟨1⟩⟩]⟩)) ∧
      (exciseEach [⟨4⟩, ⟨2⟩] c).chain.InStep ∧
      (exciseEach [⟨4⟩, ⟨2⟩] c).chain.labels = [⟨0⟩, ⟨1⟩, ⟨3⟩, ⟨5⟩, ⟨6⟩, ⟨7⟩] := by
  intro c
  have hc : c.Reachable := ⟨_, rfl⟩
  have hpreds : c.controlPreds ⟨6⟩ = [⟨3⟩, ⟨4⟩] := by decide
  have hphi : c.InStepAt ⟨6⟩ := by
    refine ⟨_, _, rfl, rfl, fun p => ?_⟩
    rw [← hc.wellFormed.mem_controlPreds, hpreds]
    rfl
  have hphis : c.InStep := by
    intro q hq
    obtain ⟨s, φ, hs, -⟩ := isPhiAt_iff.mp hq
    have honly : ∀ q ∈ c.labels, c.isPhiAt q = true → q = ⟨6⟩ := by decide
    rw [honly q (hc.wellFormed.mem_labels_of_get? hs) hq]
    exact hphi
  have hone : (c.excise ⟨4⟩).result = .ok (.goto ⟨6⟩) := by decide +kernel
  have heach : (exciseEach [⟨4⟩, ⟨2⟩] c).result = .ok () := by decide +kernel
  have hgone : (c.excise ⟨4⟩).chain.contains ⟨4⟩ = false := by decide +kernel
  have hargs : (c.excise ⟨4⟩).chain.get? ⟨6⟩ = some (.assign ⟨4⟩ (.phi ⟨[⟨.var ⟨3⟩, ⟨3⟩⟩,
      ⟨.const (.int 1), ⟨0⟩⟩, ⟨.const (.int 1), ⟨1⟩⟩]⟩)) := by decide +kernel
  have hlabels : (exciseEach [⟨4⟩, ⟨2⟩] c).chain.labels = [⟨0⟩, ⟨1⟩, ⟨3⟩, ⟨5⟩, ⟨6⟩, ⟨7⟩] := by
    decide +kernel
  obtain ⟨hstep, hrun⟩ := hc.excise_keeps_in_step
  exact ⟨hphis, hstep _ _ _ hone (by decide) hphi, hgone, hargs, hrun hphis _ heach, hlabels⟩

end Chain

end LinearSSA
