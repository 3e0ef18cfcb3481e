import LinearSSA.Proofs.Entry
import LinearSSA.Proofs.Multiplicity

/-! What decides on a removal. The answer can be read off the statements and their order alone: the
phi arguments from the statement are asked for first, then whether control enters it, then where
control goes on to from it, and last whether the jumps to it have a statement to go to. Hence, where
jumps go to statements of the chain and the arguments of each phi come from different statements, an
excision is done exactly if the statement has a landing, and nothing refers to the statement
afterwards. -/

namespace LinearSSA

namespace Chain

variable {c : Chain} {l d : Label} {s : Stmt} {r : Except Fault Stmt}

/-! ### The answer to a removal -/

/-- The number of phi arguments from `l`, over all statements. -/
def argumentsFrom (c : Chain) (l : Label) : Nat := (c.lines.flatMap (·.stmt.phiPreds)).count l

/-- The line before `l` falls through. -/
def FallenInto (c : Chain) (l : Label) : Prop :=
  ∃ p s, c.get? p = some s ∧ s.fallsThrough = true ∧ c.after? p = some l

/-- Control goes from `l` to `d`, another statement, and nowhere else, and what falls into `l` can
fall into `d` instead. -/
structure Forwards (c : Chain) (l d : Label) : Prop where
  ne : d ≠ l
  leadsOnlyTo : c.LeadsOnlyTo l d
  after? : c.FallenInto l → c.after? l = some d

/-- The answer to a removal of `l`: the first case that applies counts. -/
inductive RemovalAnswer (c : Chain) (l : Label) : Except Fault Stmt → Prop
  /-- There is no such statement. -/
  | unknown (hl : c.contains l = false) : RemovalAnswer c l (.error (.unknownStmt l))
  /-- Phi arguments come from the statement. -/
  | named (hl : c.contains l = true) (hn : 0 < c.argumentsFrom l) :
      RemovalAnswer c l (.error (.stillReferenced l (c.argumentsFrom l)))
  /-- No control enters the statement. -/
  | unentered {s : Stmt} (hs : c.get? l = some s) (hn : c.argumentsFrom l = 0)
      (ha : ∀ a, ¬ c.Edge a l) : RemovalAnswer c l (.ok s)
  /-- Control that enters the statement may leave the chain by its end. -/
  | runsOut (hn : c.argumentsFrom l = 0) (ha : ∃ a, c.Edge a l) (hr : c.RunsOut l) :
      RemovalAnswer c l (.error (.noSuccessor l))
  /-- Control that enters the statement is not forwarded to a single other one. -/
  | strays (hl : c.contains l = true) (hn : c.argumentsFrom l = 0) (ha : ∃ a, c.Edge a l)
      (hr : ¬ c.RunsOut l) (hd : ∀ d, ¬ c.Forwards l d) :
      RemovalAnswer c l (.error (.flowNotPreserved l))
  /-- Jumps are forwarded to a label without a statement. -/
  | dangles {d : Label} (hn : c.argumentsFrom l = 0) (ha : ∃ a, c.Edge a l) (hr : ¬ c.RunsOut l)
      (hd : c.Forwards l d) (hj : c.JumpedTo l) (hm : c.contains d = false) :
      RemovalAnswer c l (.error (.unknownStmt d))
  | forwarded {s : Stmt} {d : Label} (hs : c.get? l = some s) (hn : c.argumentsFrom l = 0)
      (ha : ∃ a, c.Edge a l) (hr : ¬ c.RunsOut l) (hd : c.Forwards l d)
      (hm : c.JumpedTo l → c.contains d = true) : RemovalAnswer c l (.ok s)

/-- Some case applies. -/
theorem exists_removalAnswer (c : Chain) (l : Label) : ∃ r, c.RemovalAnswer l r := by
  cases hs : c.get? l with
  | none => exact ⟨_, .unknown (by simp [contains, hs])⟩
  | some s =>
    have hl : c.contains l = true := contains_iff.mpr ⟨s, hs⟩
    rcases Nat.eq_zero_or_pos (c.argumentsFrom l) with hn | hn
    · by_cases ha : ∃ a, c.Edge a l
      · by_cases hr : c.RunsOut l
        · exact ⟨_, .runsOut hn ha hr⟩
        · by_cases hd : ∃ d, c.Forwards l d
          · obtain ⟨d, hd⟩ := hd
            by_cases hm : c.JumpedTo l → c.contains d = true
            · exact ⟨_, .forwarded hs hn ha hr hd hm⟩
            · obtain ⟨hj, hm⟩ := Classical.not_imp.mp hm
              exact ⟨_, .dangles hn ha hr hd hj (by simpa using hm)⟩
          · exact ⟨_, .strays hl hn ha hr (not_exists.mp hd)⟩
      · exact ⟨_, .unentered hs hn (not_exists.mp ha)⟩
    · exact ⟨_, .named hl hn⟩

namespace WellFormed

/-- The index records each phi argument from `l` once. -/
theorem length_provenanceOf (hc : c.WellFormed) (l : Label) :
    (c.provenanceOf l).length = c.argumentsFrom l := by
  have hkind : (fun u : Use => !u.isJump) = fun u => decide (u.kind = .provenance) := by
    funext ⟨k, kind⟩
    cases kind <;> rfl
  rw [provenanceOf, ← List.countP_eq_length_filter, hkind, hc.countP_refsTo, argumentsFrom,
    List.count_flatMap, List.count_flatMap]
  congr 2
  funext x
  exact x.stmt.count_refs_provenance l

theorem provenanceOf_eq_nil (hc : c.WellFormed) (hn : c.argumentsFrom l = 0) :
    c.provenanceOf l = [] := by
  rw [← List.length_eq_zero_iff, hc.length_provenanceOf, hn]

theorem fallenInto_iff (hc : c.WellFormed) :
    c.FallenInto l ↔ (c.fallsInto? l).isSome = true := by
  simp only [FallenInto, Option.isSome_iff_exists, fallsInto?_eq_some_iff hc.nodup]

/-- A landing is where control is forwarded to, if control enters the statement at all and does not
run out of the chain. -/
theorem landsAt_iff (hc : c.WellFormed) :
    c.LandsAt l d ↔ (∃ a, c.Edge a l) ∧ ¬ c.RunsOut l ∧ c.Forwards l d := by
  constructor
  · intro h
    refine ⟨h.entered, ?_, h.ne, h.edge_iff, fun hf => ?_⟩
    · rintro ⟨s, hs, hfall, hlast⟩
      rw [h.after? s hs hfall] at hlast
      cases hlast
    · exact h.after?_of_fallsInto? (hc.fallenInto_iff.mp hf)
  · rintro ⟨ha, hr, hd⟩
    refine ⟨hd.ne, hd.leadsOnlyTo, ha, fun s hs hfall => ?_, fun hf => ?_⟩
    · obtain ⟨b, hb⟩ : ∃ b, c.after? l = some b :=
        Option.ne_none_iff_exists'.mp fun hlast => hr ⟨s, hs, hfall, hlast⟩
      rw [hb, (hd.leadsOnlyTo b).mp ⟨s, hs, .inr ⟨hfall, hb⟩⟩]
    · exact hd.after? (hc.fallenInto_iff.mpr hf)

theorem remove_of_landing_error (hc : c.WellFormed) {e : Fault} (hs : c.get? l = some s)
    (hp : c.provenanceOf l = []) (he : c.landing l = .error e) :
    c.remove l = .refused e c := by
  obtain ⟨i, hi⟩ := hc.exists_position? hs
  rw [Chain.remove, hi]
  simp [hp, he]

/-- Control that enters a statement which does not forward it may go astray without the
statement. -/
theorem landing_of_not_forwards (hc : c.WellFormed) (hs : c.get? l = some s)
    (ha : ∃ a, c.Edge a l) (hr : ¬ c.RunsOut l) (hd : ∀ d, ¬ c.Forwards l d) :
    c.landing l = .error (.flowNotPreserved l) := by
  cases hl : c.landing l with
  | ok d =>
    cases d with
    | none => exact absurd ha (not_exists.mpr (hc.landing_eq_none_iff.mp hl).2)
    | some d => exact absurd (hc.landsAt_iff.mp (hc.landing_eq_some_iff.mp hl)).2.2 (hd d)
  | error e =>
    rcases hc.landing_error_cases hl with ⟨-, hnone⟩ | ⟨-, hruns⟩ | ⟨rfl, -⟩
    · rw [hs] at hnone
      cases hnone
    · exact absurd hruns hr
    · rfl

/-- What the case that applies says is what the removal answers. -/
theorem result_of_removalAnswer (hc : c.WellFormed) (h : c.RemovalAnswer l r) :
    (c.remove l).result = r := by
  cases h with
  | unknown hl =>
    have hpos : c.position? l = none := by
      rw [← Option.not_isSome_iff_eq_none, position?_isSome, hc.mem_labels, hl]
      exact Bool.false_ne_true
    rw [Chain.remove, hpos]
    rfl
  | named hl hn =>
    rw [← hc.length_provenanceOf] at hn ⊢
    obtain ⟨u, hu⟩ := List.exists_mem_of_length_pos hn
    rw [remove_of_provenance ((hc.mem_labels l).mpr hl) hu]
    rfl
  | unentered hs hn ha =>
    have hl : c.landing l = .ok none :=
      hc.landing_eq_none_iff.mpr ⟨contains_iff.mpr ⟨_, hs⟩, ha⟩
    obtain ⟨s', c', hs', hdone, -⟩ :=
      hc.remove hl (hc.provenanceOf_eq_nil hn) fun d hd => by cases hd
    rw [hdone, Option.some.inj (hs.symm.trans hs')]
    rfl
  | runsOut hn ha hr =>
    obtain ⟨s, hs⟩ : ∃ s, c.get? l = some s := hr.imp fun _ h => h.1
    rw [hc.remove_of_landing_error hs (hc.provenanceOf_eq_nil hn) (hc.landing_of_runsOut ha hr)]
    rfl
  | strays hl hn ha hr hd =>
    obtain ⟨s, hs⟩ := contains_iff.mp hl
    rw [hc.remove_of_landing_error hs (hc.provenanceOf_eq_nil hn)
      (hc.landing_of_not_forwards hs ha hr hd)]
    rfl
  | dangles hn ha hr hd hj hm =>
    have hl := hc.landing_eq_some_iff.mpr (hc.landsAt_iff.mpr ⟨ha, hr, hd⟩)
    rw [hc.remove_of_dangling hl (hc.provenanceOf_eq_nil hn) (hc.isBranchedTo_iff.mpr hj) hm]
    rfl
  | forwarded hs hn ha hr hd hm =>
    have hl := hc.landing_eq_some_iff.mpr (hc.landsAt_iff.mpr ⟨ha, hr, hd⟩)
    obtain ⟨s', c', hs', hdone, -⟩ := hc.remove hl (hc.provenanceOf_eq_nil hn) fun d' hd' hb => by
      obtain rfl := Option.some.inj hd'
      exact hm (hc.isBranchedTo_iff.mp hb)
    rw [hdone, Option.some.inj (hs.symm.trans hs')]
    rfl

end WellFormed

/-- A removal answers what the statements, their order and their flow of control say. -/
theorem Reachable.remove_answers_iff (h : c.Reachable) (l : Label) (r : Except Fault Stmt) :
    (c.remove l).result = r ↔ c.RemovalAnswer l r := by
  have hc := h.wellFormed
  constructor
  · rintro rfl
    obtain ⟨r, hr⟩ := c.exists_removalAnswer l
    rwa [hc.result_of_removalAnswer hr]
  · exact hc.result_of_removalAnswer

/-- A switch all of whose rows lead to the next line, and a goto to a label without a statement. -/
theorem remove_answers_of_switch :
    let c := run [.push .nop, .push (.switch (.var ⟨0⟩) [⟨2⟩] ⟨2⟩), .push (.goto ⟨9⟩),
      .push (.goto ⟨1⟩)] empty
    c.Reachable ∧ c.RemovalAnswer ⟨1⟩ (.ok (.switch (.var ⟨0⟩) [⟨2⟩] ⟨2⟩)) ∧
      c.RemovalAnswer ⟨2⟩ (.error (.unknownStmt ⟨9⟩)) := by
  intro c
  have hc : c.Reachable := ⟨_, rfl⟩
  exact ⟨hc, (hc.remove_answers_iff ⟨1⟩ _).mp (by rfl), (hc.remove_answers_iff ⟨2⟩ _).mp (by rfl)⟩

/-! ### The answer to an excision -/

namespace WellFormed

/-- A phi with different arguments has one of them from `l` at most. -/
theorem count_phiPreds_le_one (hc : c.WellFormed) (hd : c.DistinctArgs) {p : Label}
    (hs : c.get? p = some s) : s.phiPreds.count l ≤ 1 := by
  cases hφ : s.phi? with
  | none => simp [Stmt.phiPreds, hφ]
  | some φ =>
    have hnodup : φ.preds.Nodup := hd (p, φ) (hc.mem_phis.mpr ⟨s, hs, hφ⟩)
    rw [Stmt.phiPreds_of_phi? hφ]
    exact List.nodup_iff_count_le_one.mp hnodup l

/-- Once `l` is excised, no statement refers to it. -/
theorem target_ne_of_excised (hc : c.WellFormed) (hs : (c.excise l).result = .ok s) {k : Label}
    {t : Stmt} (ht : (c.excise l).chain.get? k = some t) {r : Ref} (hr : r ∈ t.refs) :
    r.target ≠ l := by
  obtain ⟨d, c₁, hl, hmaps, hp, hrem⟩ := hc.removed_of_result hs
  have hl₁ : c₁.landing l = .ok d := by
    rw [hmaps.landing (Stmt.jumpTargets_mapPhi _) (Stmt.fallsThrough_mapPhi _) hc, hl]
  rw [hrem.get?] at ht
  split at ht
  · cases ht
  · obtain ⟨t₁, ht₁, rfl⟩ := Option.map_eq_some_iff.mp ht
    exact hmaps.wellFormed.target_ne_of_mem_refs hl₁ hp ht₁ hr

end WellFormed

/-- Where jumps go to statements of the chain and the arguments of each phi come from different
statements, an excision is done exactly if there is a landing. The statement is gone then, and
nothing refers to it. -/
theorem Reachable.excise_done_iff_landing (h : c.Reachable)
    (hj : ∀ k s, c.get? k = some s → ∀ t ∈ s.jumpTargets, c.contains t = true)
    (hd : c.DistinctArgs) (l : Label) :
    ((∃ s, (c.excise l).result = .ok s) ↔ ∃ d, c.landing l = .ok d) ∧
    ∀ s, (c.excise l).result = .ok s → (c.excise l).chain.contains l = false ∧
      ∀ k t, (c.excise l).chain.get? k = some t → ∀ r ∈ t.refs, r.target ≠ l := by
  have hc := h.wellFormed
  refine ⟨⟨?_, ?_⟩, fun s hs => ⟨?_, fun k t ht r hr => hc.target_ne_of_excised hs ht hr⟩⟩
  · rintro ⟨s, hs⟩
    obtain ⟨d, hl, -⟩ := hc.excised_of_result hs
    exact ⟨d, hl⟩
  · rintro ⟨d, hl⟩
    have hland : ∀ t, d = some t → c.isBranchedTo l = true → c.contains t = true := by
      rintro t rfl -
      have hedge : c.Edge l t := ((hc.landing_eq_some_iff.mp hl).edge_iff t).mpr rfl
      exact hc.contains_of_edge hedge fun s hs ht => hj l s hs t ht
    obtain ⟨s, c', hdone⟩ :=
      hc.excise_of_one_argument hl (fun p s hs => hc.count_phiPreds_le_one hd hs) hland
    exact ⟨s, by rw [hdone]; rfl⟩
  · obtain ⟨d, -, hr⟩ := hc.excised_of_result hs
    simpa using mt (hr.contains_iff l).mp

/-- A nop that a line falls into and a later one jumps back to, and that a phi names. -/
theorem excise_done_iff_landing_of_loop :
    let c := run [.push (.branch (.var ⟨0⟩) ⟨2⟩), .push .nop, .push (.assign ⟨2⟩
      (.phi ⟨[⟨.var ⟨1⟩, ⟨0⟩⟩, ⟨.var ⟨3⟩, ⟨1⟩⟩]⟩)), .push (.goto ⟨1⟩)] empty
    (∀ k s, c.get? k = some s → ∀ t ∈ s.jumpTargets, c.contains t = true) ∧ c.DistinctArgs ∧
      c.landing ⟨1⟩ = .ok (some ⟨2⟩) ∧ (∃ s, (c.excise ⟨1⟩).result = .ok s) ∧
      c.landing ⟨3⟩ = .error (.flowNotPreserved ⟨3⟩) ∧
      ¬ ∃ s, (c.excise ⟨3⟩).result = .ok s := by
  intro c
  have hc : c.Reachable := ⟨_, rfl⟩
  have hj : ∀ k s, c.get? k = some s → ∀ t ∈ s.jumpTargets, c.contains t = true := by
    have hlines : ∀ x ∈ c.lines, ∀ t ∈ x.stmt.jumpTargets, c.contains t = true := by decide
    intro k s hs
    exact hlines ⟨k, s⟩ (mem_lines.mpr ⟨hc.wellFormed.mem_labels_of_get? hs, hs⟩)
  have hd : c.DistinctArgs := by decide
  have hl : c.landing ⟨1⟩ = .ok (some ⟨2⟩) := by rfl
  have he : c.landing ⟨3⟩ = .error (.flowNotPreserved ⟨3⟩) := by rfl
  have hiff := fun l => (hc.excise_done_iff_landing hj hd l).1
  exact ⟨hj, hd, hl, (hiff ⟨1⟩).mpr ⟨_, hl⟩, he, mt (hiff ⟨3⟩).mp (by simp [he])⟩

end Chain

end LinearSSA
