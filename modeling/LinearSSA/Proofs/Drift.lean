import LinearSSA.Proofs.Spreading

/-! Drifted indices. Where the index records a phi argument that the statements do not bear out, a
rerouting is refused before the first change. Whatever else is wrong with the index does no harm to
it: entries for jumps, entries of a holder that is no phi and repeated entries are passed over, and
the statements that control comes from are not looked up in the index at all. -/

namespace LinearSSA

/-- Whether the fault is a contradiction between the index and the statements. -/
def Fault.isDrift : Fault → Bool
  | .missingSource .. | .notPhi _ | .unboundPhi .. | .lostArgument .. => true
  | _ => false

/-- One of the arguments from `l` is the first. -/
theorem Phi.exists_first_arg {φ : Phi} {l : Label} (h : l ∈ φ.preds) :
    ∃ as v bs, φ.args = as ++ ⟨v, l⟩ :: bs ∧ ∀ a ∈ as, a.pred ≠ l := by
  obtain ⟨a, ha, hpred⟩ := List.mem_map.mp h
  obtain ⟨⟨v, k⟩, as, bs, has, hk, hargs, -⟩ :=
    List.exists_of_eraseP (p := (·.pred = l)) ha (by simpa using hpred)
  obtain rfl : k = l := by simpa using hk
  exact ⟨as, v, bs, hargs, fun a ha => by simpa using has a ha⟩

namespace Chain

variable {c : Chain} {l : Label}

/-! ### The contradiction is found -/

theorem phiUsers_of_missing (h : ∃ p, ⟨p, .provenance⟩ ∈ c.refsTo l ∧ c.contains p = false) :
    ∃ p, ⟨p, .provenance⟩ ∈ c.refsTo l ∧ c.contains p = false ∧
      c.phiUsers l = .error (.missingSource p l) := by
  obtain ⟨q, hq, hmissing⟩ := h
  have hfound : (((c.provenanceOf l).map (·.source)).find? (!c.contains ·)).isSome := by
    rw [List.find?_isSome]
    exact ⟨q, mem_map_source.mpr hq, by simp [hmissing]⟩
  obtain ⟨p, hp⟩ := Option.isSome_iff_exists.mp hfound
  refine ⟨p, mem_map_source.mp (List.mem_of_find?_eq_some hp), ?_, by rw [phiUsers, hp]⟩
  simpa using List.find?_some hp

theorem bindingOf_of_not_mem {p : Label} {s : Stmt} {φ : Phi} (hs : c.get? p = some s)
    (hφ : s.phi? = some φ) (hl : l ∉ φ.preds) : c.bindingOf l p = .error (.unboundPhi p l) := by
  have hi : φ.argIndex? l = none := by
    rw [← Option.not_isSome_iff_eq_none]
    exact mt Phi.argIndex?_isSome.mp hl
  simp [bindingOf, hs, hφ, hi]

/-- A phi without an argument from `l` is reported. -/
theorem mapM_bindingOf_of_not_mem {ps : List Label} (hps : ∀ p ∈ ps, c.isPhiAt p = true)
    (h : ∃ p ∈ ps, c.UnboundPhi p l) :
    ∃ p ∈ ps, c.UnboundPhi p l ∧ ps.mapM (c.bindingOf l) = .error (.unboundPhi p l) := by
  induction ps with
  | nil => simp at h
  | cons p ps ih =>
    obtain ⟨s, φ, hs, hφ⟩ := isPhiAt_iff.mp (hps p (by simp))
    by_cases hl : l ∈ φ.preds
    · obtain ⟨b, hb, -⟩ := bindingOf_of_mem hs ((Stmt.phiPreds_of_phi? hφ).symm ▸ hl)
      have hrest : ∃ p ∈ ps, c.UnboundPhi p l := by
        obtain ⟨q, hq, t, ψ, ht, hψ, hn⟩ := h
        rcases List.mem_cons.mp hq with rfl | hq
        · obtain rfl := Option.some.inj (hs.symm.trans ht)
          obtain rfl := Option.some.inj (hφ.symm.trans hψ)
          exact absurd hl hn
        · exact ⟨q, hq, t, ψ, ht, hψ, hn⟩
      obtain ⟨q, hq, hcause, he⟩ := ih (fun q hq => hps q (by simp [hq])) hrest
      refine ⟨q, by simp [hq], hcause, ?_⟩
      rw [List.mapM_cons, hb, he]
      rfl
    · refine ⟨p, by simp, ⟨s, φ, hs, hφ, hl⟩, ?_⟩
      rw [List.mapM_cons, bindingOf_of_not_mem hs hφ hl]
      rfl

/-- A drift is reported with a holder that the statements contradict, and nothing changes. -/
theorem reroute_of_drifted (hl : c.contains l = true) (h : c.Drifted l) :
    ∃ p, ⟨p, .provenance⟩ ∈ c.refsTo l ∧
      (c.contains p = false ∧ c.reroute l = .refused (.missingSource p l) c ∨
        c.UnboundPhi p l ∧ c.reroute l = .refused (.unboundPhi p l) c) := by
  obtain ⟨p, hp, hcause⟩ := h
  have hj : (c.refsTo l).all (·.isJump) = false := by
    refine Bool.eq_false_iff.mpr fun hall => ?_
    have hentry := mem_map_source.mpr hp
    simp [all_isJump_iff.mp hall] at hentry
  have hrefused : ∀ e, (c.phiUsers l).bind (·.mapM (c.bindingOf l)) = .error e →
      c.reroute l = .refused e c := by
    intro e he
    rw [reroute, hl, hj, he]
    rfl
  by_cases hmissing : ∃ p, ⟨p, .provenance⟩ ∈ c.refsTo l ∧ c.contains p = false
  · obtain ⟨q, hq, hnone, he⟩ := phiUsers_of_missing hmissing
    exact ⟨q, hq, .inl ⟨hnone, hrefused _ (by rw [he]; rfl)⟩⟩
  · obtain ⟨ps, hps, -, hmem⟩ := phiUsers_of_contains (c := c) (l := l) fun q hq => by
      by_contra hnot
      exact hmissing ⟨q, hq, by simpa using hnot⟩
    have hunbound : ∃ q ∈ ps, c.UnboundPhi q l := by
      rcases hcause with hnone | ⟨s, φ, hs, hφ, hn⟩
      · exact absurd ⟨p, hp, hnone⟩ hmissing
      · exact ⟨p, (hmem p).mpr ⟨hp, isPhiAt_iff.mpr ⟨s, φ, hs, hφ⟩⟩, s, φ, hs, hφ, hn⟩
    obtain ⟨q, hq, hnot, he⟩ :=
      mapM_bindingOf_of_not_mem (fun q hq => ((hmem q).mp hq).2) hunbound
    exact ⟨q, ((hmem q).mp hq).1, .inr ⟨hnot, hrefused _ (by rw [hps]; exact he)⟩⟩

/-- Exactly a drift is reported as one. -/
theorem isDrift_reroute_iff (hl : c.contains l = true) :
    (∃ e, (c.reroute l).result = .error e ∧ e.isDrift = true) ↔ c.Drifted l := by
  constructor
  · rintro ⟨e, he, -⟩
    by_contra hnot
    obtain ⟨ps, c', -, -, hdone, -⟩ := reroute_of_not_drifted hl hnot
    rw [hdone] at he
    cases he
  · intro h
    obtain ⟨p, -, ⟨-, he⟩ | ⟨-, he⟩⟩ := reroute_of_drifted hl h
    · exact ⟨_, congrArg Outcome.result he, rfl⟩
    · exact ⟨_, congrArg Outcome.result he, rfl⟩

/-! ### Any index beside the statements of a chain -/

/-- Beside any index, a rerouting is refused for a drift exactly where there is one, and then
nothing changes. Otherwise it is done and counts the phis that the index names; each of them has an
argument from the statement, the first of which it spreads over the control predecessors. -/
theorem Reachable.reroute_detects_drift (h : c.Reachable) (x : RefIndex)
    (hl : c.contains l = true) :
    let b : Chain := { c with index := x }
    ((∃ e, (b.reroute l).result = .error e ∧ e.isDrift = true) ↔ b.Drifted l) ∧
    (b.Drifted l → (b.reroute l).chain = b) ∧
    (¬ b.Drifted l → ∃ c',
      b.reroute l = .done (c.phis.countP (⟨·.1, .provenance⟩ ∈ x.refsTo l)) c' ∧
      c'.labels = c.labels ∧
      (∀ q y φ, c.get? q = some (.assign y (.phi φ)) → ⟨q, .provenance⟩ ∈ x.refsTo l →
        ∃ as v bs, φ.args = as ++ ⟨v, l⟩ :: bs ∧ (∀ a ∈ as, a.pred ≠ l) ∧
          c'.get? q = some (.assign y (.phi ⟨as ++ bs ++ (c.controlPreds l).map (⟨v, ·⟩)⟩))) ∧
      ∀ q, ¬ (⟨q, .provenance⟩ ∈ x.refsTo l ∧ c.isPhiAt q = true) → c'.get? q = c.get? q) := by
  intro b
  have hc := h.wellFormed
  have hlb : b.contains l = true := hl
  refine ⟨isDrift_reroute_iff hlb, fun hdrift => ?_, fun hnot => ?_⟩
  · obtain ⟨p, -, ⟨-, he⟩ | ⟨-, he⟩⟩ := reroute_of_drifted hlb hdrift
    · rw [he, Outcome.chain_refused]
    · rw [he, Outcome.chain_refused]
  · obtain ⟨ps, c', hd, hmem, hdone, hlabels, hget⟩ := reroute_of_not_drifted hlb hnot
    have hlength : ps.length = c.phis.countP (⟨·.1, .provenance⟩ ∈ x.refsTo l) := by
      refine length_eq_countP_phis hc.nodup hd fun p => (hmem p).trans ?_
      have hphi : b.isPhiAt p = true ↔ ∃ φ, (p, φ) ∈ c.phis := hc.isPhiAt_iff_mem_phis
      rw [hphi, and_comm, ← exists_and_right]
      simp [b, refsTo]
    refine ⟨c', hlength ▸ hdone, hlabels, fun q y φ hq hentry => ?_, fun q hq => ?_⟩
    · have hphi : b.isPhiAt q = true := isPhiAt_iff.mpr ⟨_, φ, hq, rfl⟩
      have hpreds : l ∈ φ.preds := mem_preds_of_not_drifted hnot hentry hq rfl
      obtain ⟨as, v, bs, hargs, has⟩ := Phi.exists_first_arg hpreds
      obtain ⟨args⟩ := φ
      subst hargs
      refine ⟨as, v, bs, rfl, has, ?_⟩
      have hold : b.get? q = some (.assign y (.phi ⟨as ++ ⟨v, l⟩ :: bs⟩)) := hq
      rw [hget q, if_pos ((hmem q).mpr ⟨hentry, hphi⟩), hold, ← Phi.reroute_append has]
      rfl
    · rw [hget q, if_neg (mt (hmem q).mp hq)]
      rfl

/-- An index that names a holder that is no phi, a phi twice, and the same phi for a statement that
it has no argument from. -/
theorem reroute_detects_drift_of_phi :
    let c := run [.push .nop, .push .nop,
      .push (.assign ⟨2⟩ (.phi ⟨[⟨.var ⟨1⟩, ⟨0⟩⟩, ⟨.var ⟨4⟩, ⟨1⟩⟩]⟩))] empty
    let x := [(⟨1⟩, ⟨⟨0⟩, .provenance⟩), (⟨2⟩, ⟨⟨0⟩, .provenance⟩), (⟨2⟩, ⟨⟨0⟩, .provenance⟩),
      (⟨2⟩, ⟨⟨2⟩, .provenance⟩)].foldl (fun x (u : Label × Ref) => x.add u.1 u.2) RefIndex.empty
    let b : Chain := { c with index := x }
    c.contains ⟨0⟩ = true ∧ c.contains ⟨2⟩ = true ∧ (b.reroute ⟨0⟩).result = .ok 1 ∧
      (∃ e, (b.reroute ⟨2⟩).result = .error e ∧ e.isDrift = true) ∧ (b.reroute ⟨2⟩).chain = b := by
  intro c x b
  have hc : c.Reachable := ⟨_, rfl⟩
  have h₀ : c.contains ⟨0⟩ = true := by rfl
  have h₂ : c.contains ⟨2⟩ = true := by rfl
  have hx₀ : x.refsTo ⟨0⟩ = [⟨⟨1⟩, .provenance⟩, ⟨⟨2⟩, .provenance⟩, ⟨⟨2⟩, .provenance⟩] := by
    simp [x, RefIndex.refsTo_add]
  have hx₂ : x.refsTo ⟨2⟩ = [⟨⟨2⟩, .provenance⟩] := by simp [x, RefIndex.refsTo_add]
  have hdrift : b.Drifted ⟨2⟩ := by
    refine ⟨⟨2⟩, ?_, .inr ⟨_, _, rfl, rfl, by decide⟩⟩
    show _ ∈ x.refsTo ⟨2⟩
    simp [hx₂]
  have hnot : ¬ b.Drifted ⟨0⟩ := by
    rintro ⟨p, hp, hcause⟩
    replace hp : ⟨p, .provenance⟩ ∈ x.refsTo ⟨0⟩ := hp
    rw [hx₀] at hp
    obtain rfl | rfl : p = ⟨1⟩ ∨ p = ⟨2⟩ := by simpa using hp
    · obtain hnone | ⟨s, φ, hs, hφ, -⟩ := hcause
      · cases hnone
      · cases hs
        cases hφ
    · obtain hnone | ⟨s, φ, hs, hφ, hn⟩ := hcause
      · cases hnone
      · cases hs
        cases hφ
        exact hn (by decide)
  obtain ⟨-, -, hdone⟩ := hc.reroute_detects_drift x h₀
  obtain ⟨hiff, hkept, -⟩ := hc.reroute_detects_drift x h₂
  obtain ⟨c', hdone, -⟩ := hdone hnot
  refine ⟨h₀, h₂, ?_, hiff.mpr hdrift, hkept hdrift⟩
  rw [hdone, hx₀]
  rfl

end Chain

end LinearSSA
