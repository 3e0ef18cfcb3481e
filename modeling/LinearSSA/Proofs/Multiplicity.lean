import LinearSSA.Proofs.Spreading
import Mathlib.Tactic.TFAE

/-! How many arguments of a phi come from one statement. A rerouting takes one argument from the
rerouted statement out of each phi, so that a phi with two of them keeps one, and it adds one from
each control predecessor, so that a phi with an argument from there already has two afterwards.
Where there is no phi of the first kind, only jumps refer to the statement any more; where there is
none of the second kind, the arguments of a phi still come from different statements. -/

namespace LinearSSA

namespace Phi

variable {φ : Phi} {l p : Label} {v : Operand} {preds : List Label}

/-- The arguments from `p`. -/
def argsFrom (φ : Phi) (p : Label) : List Arg := φ.args.filter (·.pred = p)

/-- The first of them counts. -/
theorem valueFrom?_eq_head? (φ : Phi) (p : Label) :
    φ.valueFrom? p = (φ.argsFrom p).head?.map (·.value) := by
  rw [valueFrom?_eq, argsFrom, List.head?_filter]

theorem argsFrom_append (as bs : List Arg) (p : Label) :
    argsFrom ⟨as ++ bs⟩ p = argsFrom ⟨as⟩ p ++ argsFrom ⟨bs⟩ p :=
  List.filter_append as bs

theorem argsFrom_of_not_mem {as : List Arg} (h : ∀ a ∈ as, a.pred ≠ p) : argsFrom ⟨as⟩ p = [] :=
  List.filter_eq_nil_iff.mpr fun a ha => by simpa using h a ha

theorem argsFrom_map (hp : preds.Nodup) (hmem : p ∈ preds) (v : Operand) :
    argsFrom ⟨preds.map (⟨v, ·⟩)⟩ p = [⟨v, p⟩] := by
  have hone : preds.filter (· = p) = [p] := by
    rw [List.filter_eq, List.count_eq_one_of_mem hp hmem, List.replicate_one]
  rw [argsFrom, List.filter_map]
  exact congrArg (List.map (Arg.mk v)) hone

/-- A new label gets one argument after those that it had, except that `l` loses the one it had. -/
theorem argsFrom_reroute (hd : φ.preds.Nodup) (hp : preds.Nodup) (hv : ⟨v, l⟩ ∈ φ.args)
    (hmem : p ∈ preds) :
    (φ.reroute l preds).argsFrom p = (if p = l then [] else φ.argsFrom p) ++ [⟨v, p⟩] := by
  obtain ⟨args⟩ := φ
  obtain ⟨as, bs, rfl⟩ := List.append_of_mem hv
  have hsplit : ((as.map (·.pred)) ++ l :: bs.map (·.pred)).Nodup := by
    simpa [Phi.preds] using hd
  obtain ⟨-, hbs, has⟩ := List.nodup_append.mp hsplit
  have has' : ∀ a ∈ as, a.pred ≠ l := fun a ha =>
    has a.pred (List.mem_map_of_mem ha) l (List.mem_cons_self ..)
  have hbs' : ∀ b ∈ bs, b.pred ≠ l := fun b hb he =>
    (List.nodup_cons.mp hbs).1 (List.mem_map.mpr ⟨b, hb, he⟩)
  rw [reroute_append has', argsFrom_append, argsFrom_append, argsFrom_map hp hmem]
  congr 1
  by_cases hpl : p = l
  · rw [if_pos hpl, hpl, argsFrom_of_not_mem has', argsFrom_of_not_mem hbs', List.append_nil]
  · have hl : argsFrom ⟨⟨v, l⟩ :: bs⟩ p = argsFrom ⟨bs⟩ p := by
      simp [argsFrom, Ne.symm hpl]
    rw [if_neg hpl, argsFrom_append, hl]

/-- The arguments come from different statements as long as no new label had one. -/
theorem nodup_preds_reroute (hd : φ.preds.Nodup) (hp : preds.Nodup) (hl : l ∈ φ.preds) :
    (φ.reroute l preds).preds.Nodup ↔ ∀ p ∈ preds, p ∈ φ.preds → p = l := by
  rw [preds_reroute hl, List.nodup_append]
  constructor
  · rintro ⟨-, -, hne⟩ p hmem hold
    by_contra hpl
    exact hne p (hd.mem_erase_iff.mpr ⟨hpl, hold⟩) p hmem rfl
  · intro h
    refine ⟨hd.erase l, hp, fun a ha p hmem he => ?_⟩
    obtain ⟨hal, hold⟩ := hd.mem_erase_iff.mp ha
    exact hal (he.trans (h p hmem (he ▸ hold)))

end Phi

namespace Chain

variable {c c' : Chain} {l : Label} {s : Stmt}

theorem Maps.phis {f : Phi → Phi} (h : c.Maps (·.mapPhi f) c') :
    c'.phis = c.phis.map fun x => (x.1, f x.2) :=
  h.phis_eq_map (Stmt.phi?_mapPhi f)

namespace WellFormed

theorem edge_self_iff (hc : c.WellFormed) (hs : c.get? l = some s) :
    c.Edge l l ↔ l ∈ s.jumpTargets := by
  rw [edge_iff hs, or_iff_left]
  rintro ⟨-, ha⟩
  obtain ⟨i, hi, hi'⟩ := (after?_eq_some_iff hc.nodup).mp ha
  have hpos := (position?_eq_some_iff hc.nodup).mpr hi
  rw [(position?_eq_some_iff hc.nodup).mpr hi'] at hpos
  simp at hpos

theorem provenanceOf_eq_nil_iff_phis (hc : c.WellFormed) :
    c.provenanceOf l = [] ↔ ∀ x ∈ c.phis, l ∉ x.2.preds := by
  rw [hc.provenanceOf_eq_nil_iff]
  constructor
  · rintro h ⟨q, φ⟩ hx
    obtain ⟨s, hs, hφ⟩ := hc.mem_phis.mp hx
    have hnot := h q s hs
    rwa [Stmt.phiPreds_of_phi? hφ] at hnot
  · intro h q s hs hl
    obtain ⟨φ, hφ, hl⟩ := Stmt.phi?_of_mem_phiPreds hl
    exact h (q, φ) (hc.mem_phis.mpr ⟨s, hs, hφ⟩) hl

/-! ### Arguments that stay -/

/-- Where control is what forbids a removal, the fault says so. -/
theorem fault_of_landing (hc : c.WellFormed) {e : Fault} (he : c.landing l = .error e) :
    e ∈ [.unknownStmt l, .noSuccessor l, .flowNotPreserved l] := by
  rcases hc.landing_error_cases he with ⟨rfl, -⟩ | ⟨rfl, -⟩ | ⟨rfl, -⟩ <;> simp

/-- A removal that phi arguments do not stand in the way of is not refused for their sake. -/
theorem remove_ne_stillReferenced (hc : c.WellFormed) (hp : c.provenanceOf l = []) (k : Label)
    (n : Nat) : (c.remove l).result ≠ .error (.stillReferenced k n) := by
  cases hi : c.position? l with
  | none => simp [Chain.remove, hi, Outcome.refused]
  | some i =>
    cases hl : c.landing l with
    | error e =>
      have hfault := hc.fault_of_landing hl
      simp only [Chain.remove, hi, hp, hl, Outcome.refused]
      rintro ⟨⟩
      simp at hfault
    | ok d =>
      rcases hc.evacuate_cases hl hp with ⟨d', rfl, hb, hd', -⟩ | ⟨m, c₁, hev, hm⟩
      · simp [hc.remove_of_dangling hl hp hb hd', Outcome.refused]
      · obtain ⟨s, c', -, hdone, -⟩ := hc.remove_of_evacuate hl hp hev hm
        simp [hdone, Outcome.done]

/-- What it means that no phi argument comes from a statement of the chain. -/
theorem unnamed_tfae (hc : c.WellFormed) (hl : c.contains l = true) :
    [∀ x ∈ c.phis, l ∉ x.2.preds, (c.refsTo l).all (·.isJump) = true,
      ∀ n, (c.remove l).result ≠ .error (.stillReferenced l n), c.reroute l = .done 0 c].TFAE := by
  have hnil := hc.provenanceOf_eq_nil_iff_phis (l := l)
  tfae_have 1 ↔ 2 := by rw [all_isJump_iff, hnil]
  tfae_have 1 → 3 := fun h n => hc.remove_ne_stillReferenced (hnil.mpr h) l n
  tfae_have 3 → 1 := by
    intro h
    by_contra hnot
    obtain ⟨u, hu⟩ := List.exists_mem_of_ne_nil _ (mt hnil.mp hnot)
    have hmem : l ∈ c.labels := (hc.mem_labels l).mpr hl
    exact h _ (by rw [remove_of_provenance hmem hu]; rfl)
  tfae_have 1 → 4 := fun h => reroute_of_provenanceOf hl (hnil.mpr h)
  tfae_have 4 → 1 := by
    intro h x hx hmem
    obtain ⟨c', hdone, -⟩ := hc.reroute hl
    have hzero : c.phis.countP (l ∈ ·.2.preds) = 0 :=
      Except.ok.inj (congrArg Outcome.result (hdone.symm.trans h))
    exact List.countP_eq_zero.mp hzero x hx (by simpa using hmem)
  tfae_finish

end WellFormed

/-- A rerouting of a statement that does not jump to itself leaves every phi with one argument from
it less. Hence no argument from it is left exactly where no phi had two of them. -/
theorem Reachable.reroute_clears_provenance_tfae (h : c.Reachable) (hs : c.get? l = some s)
    (hself : l ∉ s.jumpTargets) :
    ∃ n c', c.reroute l = .done n c' ∧
      c'.phis.map (fun x => (x.1, x.2.preds.count l)) =
        c.phis.map (fun x => (x.1, x.2.preds.count l - 1)) ∧
      [∀ x ∈ c.phis, x.2.preds.count l ≤ 1, ∀ x ∈ c'.phis, l ∉ x.2.preds,
        (c'.refsTo l).all (·.isJump) = true,
        ∀ n, (c'.remove l).result ≠ .error (.stillReferenced l n),
        c'.reroute l = .done 0 c'].TFAE := by
  have hc := h.wellFormed
  have hl : c.contains l = true := contains_iff.mpr ⟨s, hs⟩
  obtain ⟨c', hdone, hmaps⟩ := hc.reroute hl
  have hnot : l ∉ c.controlPreds l := mt hc.mem_controlPreds.mp (mt (hc.edge_self_iff hs).mp hself)
  have hcount := fun φ : Phi => φ.count_preds_reroute hnot
  have hunnamed := hmaps.wellFormed.unnamed_tfae (l := l) (by rw [hmaps.contains, hl])
  refine ⟨_, c', hdone, ?_, ?_⟩
  · rw [hmaps.phis, List.map_map]
    exact List.map_congr_left fun x _ => by rw [Function.comp_apply, hcount]
  · tfae_have 1 ↔ 2 := by
      simp only [hmaps.phis, List.forall_mem_map, ← List.count_eq_zero, hcount]
      exact forall₂_congr fun x _ => by omega
    tfae_have 2 ↔ 3 := hunnamed.out 0 1
    tfae_have 2 ↔ 4 := hunnamed.out 0 2
    tfae_have 2 ↔ 5 := hunnamed.out 0 3
    tfae_finish

/-- A phi with an argument for each of the two ways that a switch has to it. -/
theorem provenance_left_of_switch :
    let c := run [.push .nop, .push (.switch (.var ⟨0⟩) [⟨2⟩] ⟨2⟩), .push (.assign ⟨2⟩
      (.phi ⟨[⟨.var ⟨1⟩, ⟨1⟩⟩, ⟨.var ⟨1⟩, ⟨1⟩⟩]⟩))] empty
    c.get? ⟨1⟩ = some (.switch (.var ⟨0⟩) [⟨2⟩] ⟨2⟩) ∧
      ∃ n c', c.reroute ⟨1⟩ = .done n c' ∧ ¬ (∀ x ∈ c'.phis, ⟨1⟩ ∉ x.2.preds) ∧
        (∃ n, (c'.remove ⟨1⟩).result = .error (.stillReferenced ⟨1⟩ n)) ∧
        c'.reroute ⟨1⟩ ≠ .done 0 c' := by
  intro c
  have hc : c.Reachable := ⟨_, rfl⟩
  have hs : c.get? ⟨1⟩ = some (.switch (.var ⟨0⟩) [⟨2⟩] ⟨2⟩) := by rfl
  obtain ⟨n, c', hdone, -, htfae⟩ := hc.reroute_clears_provenance_tfae hs (by decide)
  have htwice : ¬ ∀ x ∈ c.phis, x.2.preds.count ⟨1⟩ ≤ 1 := by decide
  exact ⟨hs, n, c', hdone, mt (htfae.out 0 1).mpr htwice,
    not_forall_not.mp (mt (htfae.out 0 3).mpr htwice), mt (htfae.out 0 4).mpr htwice⟩

/-! ### Arguments that are there already -/

/-- The arguments of each phi come from different statements. -/
def DistinctArgs (c : Chain) : Prop := ∀ x ∈ c.phis, x.2.preds.Nodup

instance (c : Chain) : Decidable c.DistinctArgs :=
  inferInstanceAs (Decidable (∀ x ∈ c.phis, x.2.preds.Nodup))

/-- A phi with an argument from `l` has none from another statement that control enters `l`
from. -/
def Apart (c : Chain) (l : Label) : Prop :=
  ∀ x ∈ c.phis, l ∈ x.2.preds → ∀ p, c.Edge p l → p ∈ x.2.preds → p = l

/-- A rerouting gives a phi with the argument `v` from `l` another argument `v` from each control
predecessor of `l`. Hence the arguments of all phis still come from different statements exactly
where no phi had an argument from there. -/
theorem Reachable.reroute_keeps_distinct_iff (h : c.Reachable) (hd : c.DistinctArgs)
    (hl : c.contains l = true) :
    ∃ n c', c.reroute l = .done n c' ∧ (c'.DistinctArgs ↔ c.Apart l) ∧
      ∀ q φ v, (q, φ) ∈ c.phis → ⟨v, l⟩ ∈ φ.args → ∃ φ', (q, φ') ∈ c'.phis ∧
        ∀ p, c.Edge p l →
          φ'.argsFrom p = (if p = l then [] else φ.argsFrom p) ++ [⟨v, p⟩] := by
  have hc := h.wellFormed
  obtain ⟨c', hdone, hmaps⟩ := hc.reroute hl
  have hpreds : (c.controlPreds l).Nodup := nodup_eraseDups _
  refine ⟨_, c', hdone, ?_, fun q φ v hq hv => ?_⟩
  · simp only [DistinctArgs, Apart, hmaps.phis, List.forall_mem_map, ← hc.mem_controlPreds]
    refine forall₂_congr fun x hx => ?_
    by_cases hmem : l ∈ x.2.preds
    · simp [Phi.nodup_preds_reroute (hd x hx) hpreds hmem, hmem]
    · simp [Phi.reroute_of_not_mem hmem, hd x hx, hmem]
  · refine ⟨φ.reroute l (c.controlPreds l), ?_, fun p hp => ?_⟩
    · rw [hmaps.phis]
      exact List.mem_map.mpr ⟨(q, φ), hq, rfl⟩
    · exact Phi.argsFrom_reroute (hd _ hq) hpreds hv (hc.mem_controlPreds.mpr hp)

/-- A branch that leads to a phi both at once and by way of the next line. The value that the next
line gave is lost behind the one that was there. -/
theorem distinct_lost_of_branch :
    let c := run [.push (.branch (.var ⟨0⟩) ⟨2⟩), .push .nop, .push (.assign ⟨2⟩
      (.phi ⟨[⟨.var ⟨1⟩, ⟨0⟩⟩, ⟨.var ⟨3⟩, ⟨1⟩⟩]⟩))] empty
    c.DistinctArgs ∧ c.contains ⟨1⟩ = true ∧
      ∃ n c', c.reroute ⟨1⟩ = .done n c' ∧ ¬ c'.DistinctArgs ∧
        ∃ φ, (⟨2⟩, φ) ∈ c'.phis ∧ φ.argsFrom ⟨0⟩ = [⟨.var ⟨1⟩, ⟨0⟩⟩, ⟨.var ⟨3⟩, ⟨0⟩⟩] ∧
          φ.valueFrom? ⟨0⟩ = some (.var ⟨1⟩) := by
  intro c
  have hc : c.Reachable := ⟨_, rfl⟩
  have hd : c.DistinctArgs := by decide
  have hl : c.contains ⟨1⟩ = true := by rfl
  have hedge : c.Edge ⟨0⟩ ⟨1⟩ := ⟨_, rfl, .inr ⟨rfl, rfl⟩⟩
  have hφ : (⟨2⟩, ⟨[⟨.var ⟨1⟩, ⟨0⟩⟩, ⟨.var ⟨3⟩, ⟨1⟩⟩]⟩) ∈ c.phis := by decide
  obtain ⟨n, c', hdone, hiff, hargs⟩ := hc.reroute_keeps_distinct_iff hd hl
  obtain ⟨φ, hmem, hargsFrom⟩ := hargs _ _ (.var ⟨3⟩) hφ (by decide)
  have hfrom : φ.argsFrom ⟨0⟩ = [⟨.var ⟨1⟩, ⟨0⟩⟩, ⟨.var ⟨3⟩, ⟨0⟩⟩] := hargsFrom ⟨0⟩ hedge
  have hvalue : φ.valueFrom? ⟨0⟩ = some (.var ⟨1⟩) := by rw [φ.valueFrom?_eq_head?, hfrom]; rfl
  have hnot : ¬ c.Apart ⟨1⟩ := fun hapart =>
    absurd (hapart _ hφ (by decide) ⟨0⟩ hedge (by decide)) (by decide)
  exact ⟨hd, hl, n, c', hdone, mt hiff.mp hnot, φ, hmem, hfrom, hvalue⟩

end Chain

end LinearSSA
