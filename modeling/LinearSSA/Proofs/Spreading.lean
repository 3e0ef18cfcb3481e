import LinearSSA.Proofs.Reachable

/-! What a rerouting makes of a chain. It is refused only where there is no statement to reroute
the arguments of. Otherwise each phi with an argument from the statement has the first of them
spread over the control predecessors, the line that falls into the statement before those that
jump to it, and everything else stays as it is. -/

namespace LinearSSA

theorem eraseDups_of_nodup {ls : List Label} (hd : ls.Nodup) : ls.eraseDups = ls := by
  induction ls with
  | nil => rfl
  | cons l ls ih =>
    obtain ⟨hl, hd⟩ := List.nodup_cons.mp hd
    have hrest : ls.filter (fun k => !k == l) = ls := by
      refine List.filter_eq_self.mpr fun k hk => ?_
      have hne : k ≠ l := fun he => hl (he ▸ hk)
      simpa using hne
    rw [List.eraseDups_cons, hrest, ih hd]

/-- The first argument from `l` gives way to one from each of `preds`. -/
theorem Phi.reroute_append {v : Operand} {l : Label} {preds : List Label} {as bs : List Arg}
    (has : ∀ a ∈ as, a.pred ≠ l) :
    (⟨as ++ ⟨v, l⟩ :: bs⟩ : Phi).reroute l preds = ⟨as ++ bs ++ preds.map (⟨v, ·⟩)⟩ := by
  have hfind : as.find? (·.pred = l) = none :=
    List.find?_eq_none.mpr fun a ha => by simpa using has a ha
  have hval : (⟨as ++ ⟨v, l⟩ :: bs⟩ : Phi).valueFrom? l = some v := by
    simp [valueFrom?_eq, List.find?_append, hfind]
  have herase : (as ++ ⟨v, l⟩ :: bs).eraseP (·.pred = l) = as ++ bs := by
    rw [List.eraseP_append_right _ fun a ha => by simpa using has a ha]
    simp
  rw [reroute, hval, herase]

namespace Chain

variable {c : Chain} {l : Label}

theorem nodup_jumpersTo (hd : c.labels.Nodup) (l : Label) : (c.jumpersTo l).Nodup := by
  have hlines : (c.lines.map (·.label)).Nodup := by
    refine nodup_map_filterMap (fun k x hx => ?_) hd
    obtain ⟨s, -, rfl⟩ := Option.map_eq_some_iff.mp hx
    rfl
  exact hlines.sublist (List.filter_sublist.map _)

/-- The line that falls into `l` comes first, and is not named again if it jumps there as well. -/
theorem controlPreds_eq (hd : c.labels.Nodup) (l : Label) :
    c.controlPreds l =
      (c.fallsInto? l).toList ++ (c.jumpersTo l).filter (c.fallsInto? l ≠ some ·) := by
  have hfall : (c.fallsInto? l).toList.Nodup := by
    cases c.fallsInto? l <;> simp
  have hrest : (c.jumpersTo l).removeAll (c.fallsInto? l).toList =
      (c.jumpersTo l).filter (c.fallsInto? l ≠ some ·) := by
    refine List.filter_congr fun p _ => ?_
    cases c.fallsInto? l <;> simp [eq_comm]
  rw [controlPreds, List.eraseDups_append, eraseDups_of_nodup hfall, hrest,
    eraseDups_of_nodup ((nodup_jumpersTo hd l).filter _)]

/-- A rerouting is done for every statement of the chain and counts the phis that it changes; in
each of them it spreads the first argument from the statement over the control predecessors. -/
theorem Reachable.reroute_spreads_arguments (h : c.Reachable) (l : Label) :
    (c.contains l = false → c.reroute l = .refused (.unknownStmt l) c) ∧
    (c.contains l = true → ∃ preds c', preds.Nodup ∧
      preds = (c.fallsInto? l).toList ++ (c.jumpersTo l).filter (c.fallsInto? l ≠ some ·) ∧
      c.reroute l = .done (c.phis.countP (l ∈ ·.2.preds)) c' ∧
      c'.labels = c.labels ∧
      (∀ q x v as bs, c.get? q = some (.assign x (.phi ⟨as ++ ⟨v, l⟩ :: bs⟩)) →
        (∀ a ∈ as, a.pred ≠ l) →
        c'.get? q = some (.assign x (.phi ⟨as ++ bs ++ preds.map (⟨v, ·⟩)⟩))) ∧
      (∀ q, (∀ s, c.get? q = some s → l ∉ s.phiPreds) → c'.get? q = c.get? q) ∧
      ∀ q, (c'.get? q).map (·.jumpTargets) = (c.get? q).map (·.jumpTargets)) := by
  have hc := h.wellFormed
  constructor
  · intro hl
    rw [Chain.reroute, hl]
    rfl
  · intro hl
    obtain ⟨c', hdone, hmaps⟩ := hc.reroute hl
    refine ⟨c.controlPreds l, c', nodup_eraseDups _, controlPreds_eq hc.nodup l, hdone,
      hmaps.labels, fun q x v as bs hq has => ?_, fun q hq => ?_, fun q => ?_⟩
    · rw [hmaps.get?, hq, ← Phi.reroute_append has]
      rfl
    · rw [hmaps.get?]
      cases hs : c.get? q with
      | none => rfl
      | some s => rw [Option.map_some, Stmt.mapPhi_reroute_of_not_mem (hq s hs)]
    · rw [hmaps.get?, Option.map_map]
      congr 1
      funext s
      exact Stmt.jumpTargets_mapPhi _ s

/-- A statement that jumps to itself, and that the line before it both falls into and jumps to. -/
theorem reroute_spreads_arguments_of_loop :
    let c := run [.push (.switch (.var ⟨0⟩) [⟨2⟩, ⟨2⟩] ⟨2⟩), .push (.branch (.var ⟨0⟩) ⟨2⟩),
      .push (.branch (.var ⟨1⟩) ⟨2⟩), .push (.assign ⟨4⟩
        (.phi ⟨[⟨.var ⟨1⟩, ⟨2⟩⟩, ⟨.var ⟨2⟩, ⟨9⟩⟩, ⟨.var ⟨3⟩, ⟨2⟩⟩]⟩))] empty
    c.contains ⟨2⟩ = true ∧ (c.reroute ⟨2⟩).result = .ok 1 ∧
      (c.reroute ⟨2⟩).chain.get? ⟨3⟩ = some (.assign ⟨4⟩ (.phi ⟨[⟨.var ⟨2⟩, ⟨9⟩⟩,
        ⟨.var ⟨3⟩, ⟨2⟩⟩, ⟨.var ⟨1⟩, ⟨1⟩⟩, ⟨.var ⟨1⟩, ⟨0⟩⟩, ⟨.var ⟨1⟩, ⟨2⟩⟩]⟩)) := by
  intro c
  have hc : c.Reachable := ⟨_, rfl⟩
  have hl : c.contains ⟨2⟩ = true := by rfl
  obtain ⟨-, hdone⟩ := hc.reroute_spreads_arguments ⟨2⟩
  obtain ⟨preds, c', -, hpreds, hdone, -, hphi, -⟩ := hdone hl
  obtain rfl : preds = [⟨1⟩, ⟨0⟩, ⟨2⟩] := hpreds.trans (by decide)
  rw [hdone]
  exact ⟨hl, by rfl,
    hphi ⟨3⟩ ⟨4⟩ (.var ⟨1⟩) [] [⟨.var ⟨2⟩, ⟨9⟩⟩, ⟨.var ⟨3⟩, ⟨2⟩⟩] (by rfl) (by simp)⟩

end Chain

end LinearSSA
