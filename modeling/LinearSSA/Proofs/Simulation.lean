import LinearSSA.Chain.Execution
import LinearSSA.Proofs.Excision
import LinearSSA.Proofs.Flow

/-! Execution after an excision. A statement that assigns nothing is skipped: while the old chain
executes it, the new one already stands at the landing. There a phi reads the argument from the
statement that the old chain came from before, which carries the value that used to come from the
excised statement, unless the phi had an argument of its own for it. -/

namespace LinearSSA

open Chain

namespace Interpretation

variable {V : Type} (I : Interpretation V) {c c' : Chain} {l : Label} {d : Option Label}
variable {k k' k₂ : Config V}

/-! ### Steps -/

theorem step_eq_some_iff :
    I.step c k = some k' ↔ ∃ s env t, c.get? k.here = some s ∧
      I.assigned k.env k.before s = some env ∧
      I.target k.env (c.after? k.here) s = some t ∧ ⟨t, some k.here, env⟩ = k' := by
  simp [step, Option.bind_eq_some_iff]

theorem mem_exits_of_target {env : Local → V} {after : Option Label} {s : Stmt} {t : Label}
    (h : I.target env after s = some t) :
    t ∈ s.jumpTargets ∨ s.fallsThrough = true ∧ after = some t := by
  cases s with
  | nop => exact .inr ⟨rfl, h⟩
  | assign x r => exact .inr ⟨rfl, h⟩
  | goto t' => exact .inl (by simpa [Stmt.jumpTargets] using (Option.some.inj h).symm)
  | branch v t' =>
    rw [target] at h
    split at h
    · exact .inl (by simpa [Stmt.jumpTargets] using (Option.some.inj h).symm)
    · exact .inr ⟨rfl, h⟩
  | switch v ts default =>
    obtain rfl := Option.some.inj h
    refine .inl (List.mem_append.mpr ?_)
    rw [List.getD_eq_getElem?_getD]
    cases hrow : ts[I.row (I.eval env v)]? with
    | none => exact .inr (by simp)
    | some t' => exact .inl (List.mem_of_getElem? hrow)
  | ret v => cases h
  | throw v => cases h

/-- Execution follows the control flow graph. -/
theorem edge_of_step (h : I.step c k = some k') : c.Edge k.here k'.here := by
  obtain ⟨s, env, t, hs, -, ht, rfl⟩ := I.step_eq_some_iff.mp h
  exact ⟨s, hs, I.mem_exits_of_target ht⟩

/-! ### Edited statements -/

theorem assigned_retarget (env : Local → V) (before : Option Label) (old new : Label) (s : Stmt) :
    I.assigned env before (s.retarget old new) = I.assigned env before s := by
  cases s <;> rfl

/-- Redirected jumps and a redirected next line redirect the way on. -/
theorem target_retarget {env : Local → V} {after after' : Option Label} {old new : Label}
    {s : Stmt} (h : s.fallsThrough = true → after' = after.map (Stmt.redirect old new)) :
    I.target env after' (s.retarget old new) =
      (I.target env after s).map (Stmt.redirect old new) := by
  cases s with
  | nop => exact h rfl
  | assign x r => exact h rfl
  | goto t => rfl
  | branch v t =>
    rw [Stmt.retarget, target, target, h rfl]
    split <;> rfl
  | switch v ts default =>
    simp only [Stmt.retarget, target, Option.map_some, Option.some.injEq,
      List.getD_eq_getElem?_getD, List.getElem?_map]
    cases ts[I.row (I.eval env v)]? <;> rfl
  | ret v => rfl
  | throw v => rfl

theorem target_mapPhi (env : Local → V) (after : Option Label) (f : Phi → Phi) (s : Stmt) :
    I.target env after (s.mapPhi f) = I.target env after s := by
  cases s with
  | assign x r => cases r <;> rfl
  | _ => rfl

/-- A phi that reads the same value assigns the same value. -/
theorem assigned_mapPhi {env : Local → V} {before before' : Option Label} {f : Phi → Phi}
    {s : Stmt} {env' : Local → V} (h : I.assigned env before s = some env')
    (hphi : ∀ φ v, s.phi? = some φ → before.bind φ.valueFrom? = some v →
      before'.bind (f φ).valueFrom? = some v) :
    I.assigned env before' (s.mapPhi f) = some env' := by
  cases s with
  | assign x r =>
    cases r with
    | phi φ =>
      simp only [assigned, evalRhs, Option.map_map, Option.map_eq_some_iff] at h
      obtain ⟨v, hv, rfl⟩ := h
      rw [Stmt.mapPhi, assigned, evalRhs, hphi φ v rfl hv]
      rfl
    | copy v => exact h
    | binary op a b => exact h
  | _ => exact h

end Interpretation

/-! ### The relation between the executions -/

namespace Chain

variable {V : Type} {c c' : Chain} {l : Label} {d : Option Label} {k k' k₂ : Config V}

/-- `c'` is `c` without the statement of `l`, which assigns nothing and is excised where no phi
chooses between it and one of its control predecessors. -/
structure Skips (c : Chain) (l : Label) (d : Option Label) (c' : Chain) : Prop where
  wellFormed : c.WellFormed
  landing : c.landing l = .ok d
  erases : c.Erases (c.bypass l (d.getD l)) l c'
  not_assign : ∀ x r, c.get? l ≠ some (.assign x r)
  fresh : ∀ q s, c.get? q = some s → l ∈ s.phiPreds → ∀ p, c.Edge p l → p ∉ s.phiPreds

/-- Both executions are about to execute the same statement. They came from the same one, or the
old one came by way of `l`. -/
structure Aligned (c : Chain) (l : Label) (k k' : Config V) : Prop where
  ne : k.here ≠ l
  here : k'.here = k.here
  env : k'.env = k.env
  before : k.before ≠ some l ∧ k'.before = k.before ∨
    k.before = some l ∧ ∃ p, k'.before = some p ∧ c.Edge p l

/-- The old execution is about to execute `l`, where the new one is done with it. -/
structure Ahead (c : Chain) (l : Label) (d : Option Label) (k k' : Config V) : Prop where
  here : k.here = l
  landed : d = some k'.here
  env : k'.env = k.env
  entered : ∃ p, k'.before = some p ∧ c.Edge p l

/-- Two configurations at the same statement, with the same values, where the second one is not
stuck if the first one is not, and stops if the first one does. -/
structure Matches (I : Interpretation V) (c c' : Chain) (k k' : Config V) : Prop where
  here : k'.here = k.here
  env : k'.env = k.env
  unstuck : I.Unstuck c k → I.Unstuck c' k'
  stops : I.Unstuck c k → I.step c k = none → I.step c' k' = none

namespace Skips

variable (I : Interpretation V)

theorem ne_of_edge (h : c.Skips l d c') {p : Label} (hp : c.Edge p l) : p ≠ l := by
  rintro rfl
  exact h.wellFormed.not_edge_self h.landing hp

/-- What a phi read, it reads from the rerouted arguments. -/
theorem valueFrom?_reroute (h : c.Skips l d c') (ha : c.Aligned l k k') {s : Stmt} {φ : Phi}
    {v : Operand} (hs : c.get? k.here = some s) (hφ : s.phi? = some φ)
    (hv : k.before.bind φ.valueFrom? = some v) :
    k'.before.bind (φ.reroute l (c.controlPreds l)).valueFrom? = some v := by
  obtain ⟨b, hb, hbv⟩ := Option.bind_eq_some_iff.mp hv
  rcases ha.before with ⟨hne, hsame⟩ | ⟨hl, p, hp, hedge⟩
  · have hbl : b ≠ l := fun he => hne (by rw [hb, he])
    rw [hsame, hb, Option.bind_some, Phi.valueFrom?_reroute hbl, hbv]
    rfl
  · obtain rfl : b = l := Option.some.inj (hb.symm.trans hl)
    have hmem : b ∈ φ.preds := Phi.valueFrom?_isSome.mp (by rw [hbv]; rfl)
    have hnot : φ.valueFrom? p = none := by
      rw [← Option.not_isSome_iff_eq_none, Phi.valueFrom?_isSome]
      have hfresh := h.fresh k.here s hs
      rw [Stmt.phiPreds, hφ] at hfresh
      exact hfresh hmem p hedge
    rw [hp, Option.bind_some, Phi.valueFrom?_reroute (h.ne_of_edge hedge), hnot,
      if_pos (h.wellFormed.mem_controlPreds.mpr hedge), hbv]
    rfl

theorem get?_of_ne (h : c.Skips l d c') {a : Label} {s : Stmt} (ha : a ≠ l)
    (hs : c.get? a = some s) :
    c'.get? a = some (c.bypass l (d.getD l) s) := by
  rw [h.erases.get?, if_neg ha, hs, Option.map_some]

theorem assigned (h : c.Skips l d c') (ha : c.Aligned l k k') {s : Stmt} {env : Local → V}
    (hs : c.get? k.here = some s) (henv : I.assigned k.env k.before s = some env) :
    I.assigned k'.env k'.before (c.bypass l (d.getD l) s) = some env := by
  rw [bypass, I.assigned_retarget, ha.env]
  exact I.assigned_mapPhi henv fun φ v hφ hv => h.valueFrom?_reroute ha hs hφ hv

theorem target (h : c.Skips l d c') (ha : c.Aligned l k k') {s : Stmt}
    (hs : c.get? k.here = some s) :
    I.target k'.env (c'.after? k'.here) (c.bypass l (d.getD l) s) =
      (I.target k.env (c.after? k.here) s).map (Stmt.redirect l (d.getD l)) := by
  have hafter : (s.mapPhi (·.reroute l (c.controlPreds l))).fallsThrough = true →
      c'.after? k.here = (c.after? k.here).map (Stmt.redirect l (d.getD l)) := by
    rw [Stmt.fallsThrough_mapPhi]
    exact h.wellFormed.after?_erase h.landing h.erases.labels hs ha.ne
  rw [bypass, ha.env, ha.here, I.target_retarget hafter, I.target_mapPhi]

theorem matches_of_aligned (h : c.Skips l d c') (ha : c.Aligned l k k') : Matches I c c' k k' where
  here := ha.here
  env := ha.env
  unstuck := by
    rintro ⟨s, hs, hsome⟩
    obtain ⟨env, henv⟩ := Option.isSome_iff_exists.mp hsome
    exact ⟨_, ha.here ▸ h.get?_of_ne ha.ne hs, by rw [h.assigned I ha hs henv]; rfl⟩
  stops := by
    rintro ⟨s, hs, hsome⟩ hstop
    obtain ⟨env, henv⟩ := Option.isSome_iff_exists.mp hsome
    have hnone : I.target k.env (c.after? k.here) s = none := by
      refine Option.eq_none_iff_forall_ne_some.mpr fun t ht => ?_
      rw [I.step_eq_some_iff.mpr ⟨s, env, t, hs, henv, ht, rfl⟩] at hstop
      cases hstop
    have htarget := h.target I ha hs
    rw [hnone] at htarget
    refine Option.eq_none_iff_forall_ne_some.mpr fun k₂ hk₂ => ?_
    obtain ⟨s', env', t', hs', -, ht', -⟩ := I.step_eq_some_iff.mp hk₂
    rw [ha.here, h.get?_of_ne ha.ne hs] at hs'
    rw [← Option.some.inj hs', htarget] at ht'
    cases ht'

/-- Aligned executions take a step together, and the new one skips `l` if the step leads there. -/
theorem step_of_aligned (h : c.Skips l d c') (ha : c.Aligned l k k')
    (hstep : I.step c k = some k₂) :
    ∃ k₂', I.step c' k' = some k₂' ∧ (c.Aligned l k₂ k₂' ∨ c.Ahead l d k₂ k₂') := by
  have hedge := I.edge_of_step hstep
  obtain ⟨s, env, t, hs, henv, ht, rfl⟩ := I.step_eq_some_iff.mp hstep
  have htarget := h.target I ha hs
  rw [ht, Option.map_some] at htarget
  refine ⟨⟨Stmt.redirect l (d.getD l) t, some k.here, env⟩, ?_, ?_⟩
  · rw [I.step_eq_some_iff, ha.here]
    exact ⟨_, env, _, h.get?_of_ne ha.ne hs, h.assigned I ha hs henv, ha.here ▸ htarget, rfl⟩
  · have hnext := (h.wellFormed.redirect_eq_iff h.landing hedge _).mp rfl
    rcases hnext with ⟨heq, hne⟩ | ⟨rfl, hd⟩
    · left
      refine ⟨?_, heq.symm, rfl, .inl ⟨fun he => ha.ne (Option.some.inj he), rfl⟩⟩
      rw [heq]
      exact hne
    · exact .inr ⟨rfl, hd, rfl, k.here, rfl, hedge⟩

/-- Executing `l` changes nothing and leads to the landing. -/
theorem step_of_ahead (h : c.Skips l d c') (ha : c.Ahead l d k k') (hstep : I.step c k = some k₂) :
    c.Aligned l k₂ k' := by
  have hedge : c.Edge l k₂.here := ha.here ▸ I.edge_of_step hstep
  obtain ⟨p, hp, hpl⟩ := ha.entered
  have hhere : k'.here = k₂.here := by
    have hd := (h.wellFormed.edge_of_landing h.landing hpl k₂.here).mp hedge
    exact Option.some.inj (ha.landed.symm.trans hd)
  obtain ⟨s, env, t, hs, henv, -, rfl⟩ := I.step_eq_some_iff.mp hstep
  have hsame : env = k.env := by
    cases s with
    | assign x r => exact absurd (ha.here ▸ hs) (h.not_assign x r)
    | _ => exact (Option.some.inj henv).symm
  refine ⟨?_, hhere, by rw [ha.env, hsame], .inr ⟨by rw [ha.here], p, hp, hpl⟩⟩
  rintro rfl
  exact h.wellFormed.not_edge_self h.landing hedge

/-! ### Runs -/

/-- Executions that are aligned, or about to be, stay so from one statement to the next. -/
theorem run (h : c.Skips l d c') {ks : List (Config V)} (hrun : I.Run c (k :: ks))
    (hrel : c.Aligned l k k' ∨ c.Ahead l d k k') :
    ∃ ks', I.Run c' ks' ∧ (∀ k₁ ∈ ks'.head?, k₁ = k') ∧
      List.Forall₂ (Matches I c c') ((k :: ks).filter (·.here ≠ l)) ks' := by
  induction ks generalizing k k' with
  | nil =>
    rcases hrel with ha | ha
    · refine ⟨[k'], trivial, by simp, ?_⟩
      rw [List.filter_cons, if_pos (by simpa using ha.ne)]
      exact .cons (h.matches_of_aligned I ha) .nil
    · refine ⟨[], trivial, by simp, ?_⟩
      rw [List.filter_cons, if_neg (by simpa using ha.here)]
      exact .nil
  | cons k₂ ks ih =>
    obtain ⟨hstep, hrun⟩ := hrun
    rcases hrel with ha | ha
    · obtain ⟨k₂', hstep', hrel⟩ := h.step_of_aligned I ha hstep
      obtain ⟨ks', hrun', hhead, hmatch⟩ := ih hrun hrel
      refine ⟨k' :: ks', ?_, by simp, ?_⟩
      · cases ks' with
        | nil => trivial
        | cons k₁ ks' =>
          obtain rfl : k₁ = k₂' := hhead k₁ rfl
          exact ⟨hstep', hrun'⟩
      · rw [List.filter_cons, if_pos (by simpa using ha.ne)]
        exact .cons (h.matches_of_aligned I ha) hmatch
    · obtain ⟨ks', hrun', hhead, hmatch⟩ := ih hrun (.inl (h.step_of_ahead I ha hstep))
      refine ⟨ks', hrun', hhead, ?_⟩
      rwa [List.filter_cons, if_neg (by simpa using ha.here)]

end Skips

/-- An excised statement that assigns nothing is skipped: from the same configuration the chain
without it executes the other statements in the same order and with the same values. -/
theorem Reachable.excise_preserves_runs (h : c.Reachable) {t : Stmt}
    (ht : (c.excise l).result = .ok t) (hassign : ∀ x r, c.get? l ≠ some (.assign x r))
    (hfresh : ∀ q s, c.get? q = some s → l ∈ s.phiPreds → ∀ p, c.Edge p l → p ∉ s.phiPreds)
    (I : Interpretation V) {ks : List (Config V)} (hrun : I.Run c (k :: ks)) (hk : k.here ≠ l)
    (hb : k.before ≠ some l) :
    ∃ ks', I.Run (c.excise l).chain (k :: ks') ∧
      List.Forall₂ (Matches I c (c.excise l).chain) ((k :: ks).filter (·.here ≠ l)) (k :: ks') := by
  obtain ⟨d, hl, hex⟩ := h.wellFormed.excised_of_result ht
  have hskip : c.Skips l d (c.excise l).chain := ⟨h.wellFormed, hl, hex, hassign, hfresh⟩
  have hself : c.Aligned l k k := ⟨hk, rfl, rfl, .inl ⟨hb, rfl⟩⟩
  obtain ⟨ks', hrun', hhead, hmatch⟩ := hskip.run I hrun (.inl hself)
  rw [List.filter_cons, if_pos (by simpa using hk)] at hmatch ⊢
  cases ks' with
  | nil => cases hmatch
  | cons k₁ ks' =>
    obtain rfl : k₁ = k := hhead k₁ rfl
    exact ⟨ks', hrun', hmatch⟩

/-- Matching configurations execute the same statements with the same values. -/
theorem map_visit_of_matches {I : Interpretation V} {ks ks' : List (Config V)}
    (h : List.Forall₂ (Matches I c c') ks ks') :
    ks'.map (fun k => (k.here, k.env)) = ks.map fun k => (k.here, k.env) := by
  induction h with
  | nil => rfl
  | cons hm _ ih => rw [List.map_cons, List.map_cons, ih, hm.here, hm.env]

/-- A pad before a phi that heads a loop. -/
theorem excise_preserves_runs_of_pad :
    let c := run [.push .nop, .push .nop, .push (.assign ⟨2⟩
      (.phi ⟨[⟨.var ⟨1⟩, ⟨1⟩⟩, ⟨.var ⟨3⟩, ⟨3⟩⟩]⟩)), .push (.goto ⟨2⟩)] empty
    let I : Interpretation Nat := ⟨fun _ => 0, fun _ a b => a + b, fun a => a = 0, id⟩
    let env : Local → Nat := fun x => x.index.toNat
    ∃ ks, I.Run (c.excise ⟨1⟩).chain (⟨⟨0⟩, none, env⟩ :: ks) ∧
      ks.map (fun k => (k.here, k.env ⟨2⟩)) = [(⟨2⟩, 2), (⟨3⟩, 1), (⟨2⟩, 1)] := by
  intro c I env
  have hc : c.Reachable := ⟨_, rfl⟩
  have ht : (c.excise ⟨1⟩).result = .ok .nop := by rfl
  have hassign : ∀ x r, c.get? ⟨1⟩ ≠ some (.assign x r) := by
    intro x r h
    cases h
  have hfresh : ∀ q s, c.get? q = some s → ⟨1⟩ ∈ s.phiPreds →
      ∀ p, c.Edge p ⟨1⟩ → p ∉ s.phiPreds := by
    intro q s hq hl p hp
    have hp : p ∈ [⟨0⟩] := hc.wellFormed.mem_controlPreds.mpr hp
    have hall : ∀ q ∈ c.labels, ∀ s ∈ c.get? q, ⟨1⟩ ∈ s.phiPreds → ⟨0⟩ ∉ s.phiPreds := by decide
    rw [List.mem_singleton.mp hp]
    exact hall q (hc.wellFormed.mem_labels_of_get? hq) s hq hl
  let env' : Local → Nat := fun y => if y = ⟨2⟩ then 1 else env y
  have hrun : I.Run c [⟨⟨0⟩, none, env⟩, ⟨⟨1⟩, some ⟨0⟩, env⟩, ⟨⟨2⟩, some ⟨1⟩, env⟩,
      ⟨⟨3⟩, some ⟨2⟩, env'⟩, ⟨⟨2⟩, some ⟨3⟩, env'⟩] := ⟨rfl, rfl, rfl, rfl, trivial⟩
  obtain ⟨ks, hrun', hmatch⟩ :=
    hc.excise_preserves_runs ht hassign hfresh I hrun (by decide) (by simp)
  have hvisits : ks.map (fun k => (k.here, k.env)) = [(⟨2⟩, env), (⟨3⟩, env'), (⟨2⟩, env')] :=
    (List.cons.inj (map_visit_of_matches hmatch)).2
  refine ⟨ks, hrun', ?_⟩
  have hvalues := congrArg (List.map fun v : Label × (Local → Nat) => (v.1, v.2 ⟨2⟩)) hvisits
  rw [List.map_map] at hvalues
  exact hvalues

end Chain

end LinearSSA
