import LinearSSA.Proofs.InStep

/-! Excisions in either order. The first of two excisions changes which statements the second one
finds before and after its own, but only as far as it lets control go around what it took out.
So both orders send a jump to the same statement, and give a phi arguments from the same
statements. -/

namespace LinearSSA

namespace Phi

variable {φ : Phi} {l : Label} {preds : List Label} {x : Arg}

/-- With at most one argument from `l`, its value flows in from the new labels and no longer
from `l`. -/
theorem mem_args_reroute (hcount : φ.preds.count l ≤ 1) :
    x ∈ (φ.reroute l preds).args ↔
      x ∈ φ.args ∧ x.pred ≠ l ∨ x.pred ∈ preds ∧ ⟨x.value, l⟩ ∈ φ.args := by
  obtain ⟨v, p⟩ := x
  by_cases hl : l ∈ φ.preds
  · obtain ⟨a, ha, hal⟩ := List.mem_map.mp hl
    obtain ⟨⟨w, l'⟩, as, bs, has, hl', hargs, herase⟩ :=
      List.exists_of_eraseP (p := (·.pred = l)) ha (by simpa using hal)
    obtain rfl : l' = l := of_decide_eq_true hl'
    have has' : ∀ b ∈ as, b.pred ≠ l' := fun b hb => by simpa using has b hb
    have hbs : ∀ b ∈ bs, b.pred ≠ l' := by
      intro b hb hbl
      have hpos : 0 < (bs.map (·.pred)).count l' :=
        List.count_pos_iff.mpr (List.mem_map.mpr ⟨b, hb, hbl⟩)
      rw [Phi.preds, hargs, List.map_append, List.map_cons, List.count_append,
        List.count_cons_self] at hcount
      omega
    have hval : φ.valueFrom? l' = some w := by
      have hnone : as.find? (·.pred = l') = none :=
        List.find?_eq_none.mpr fun b hb => by simpa using has' b hb
      rw [valueFrom?_eq, hargs, List.find?_append, hnone]
      simp
    have hrest : ⟨v, p⟩ ∈ φ.args ∧ p ≠ l' ↔ ⟨v, p⟩ ∈ as ++ bs := by
      rw [hargs, List.mem_append, List.mem_append, List.mem_cons]
      constructor
      · rintro ⟨hm | hm | hm, hp⟩
        · exact .inl hm
        · exact absurd (Arg.mk.inj hm).2 hp
        · exact .inr hm
      · rintro (hm | hm)
        · exact ⟨.inl hm, has' _ hm⟩
        · exact ⟨.inr (.inr hm), hbs _ hm⟩
    have hlost : ⟨v, l'⟩ ∈ φ.args ↔ v = w := by
      rw [hargs, List.mem_append, List.mem_cons]
      constructor
      · rintro (hm | hm | hm)
        · exact absurd rfl (has' _ hm)
        · exact (Arg.mk.inj hm).1
        · exact absurd rfl (hbs _ hm)
      · rintro rfl
        exact .inr (.inl rfl)
    rw [hrest, hlost, reroute, hval, herase, List.mem_append, List.mem_map]
    simp [eq_comm, and_comm]
  · have hne : ∀ b ∈ φ.args, b.pred ≠ l := fun b hb he => hl (List.mem_map.mpr ⟨b, hb, he⟩)
    rw [reroute_of_not_mem hl]
    constructor
    · exact fun hm => .inl ⟨hm, hne _ hm⟩
    · rintro (⟨hm, -⟩ | ⟨-, hm⟩)
      · exact hm
      · exact absurd rfl (hne _ hm)

end Phi

namespace Stmt

/-- Two redirections can change places if they do so at every target. -/
theorem retarget_comm {s : Stmt} {a b x x' y y' : Label}
    (h : ∀ t ∈ s.jumpTargets,
      redirect b y (redirect a x t) = redirect a x' (redirect b y' t)) :
    (s.retarget a x).retarget b y = (s.retarget b y').retarget a x' := by
  cases s with
  | goto t => exact congrArg goto (h t (by simp [jumpTargets]))
  | branch v t => exact congrArg (branch v) (h t (by simp [jumpTargets]))
  | switch v ts d =>
    simp only [retarget, List.map_map, switch.injEq, true_and]
    exact ⟨List.map_congr_left fun t ht => h t (by simp [jumpTargets, ht]),
      h d (by simp [jumpTargets])⟩
  | _ => rfl

/-- The statements are the same, except that a phi may have its arguments in another order or
more than once. -/
def Alike : Stmt → Stmt → Prop
  | .assign x (.phi φ), .assign y (.phi ψ) => x = y ∧ ∀ a, a ∈ φ.args ↔ a ∈ ψ.args
  | s, t => s = t

theorem Alike.of_eq {s t : Stmt} (h : s = t) : s.Alike t := by
  subst h
  cases s with
  | assign x r =>
    cases r with
    | phi φ => exact ⟨rfl, fun a => Iff.rfl⟩
    | _ => exact rfl
  | _ => exact rfl

theorem eq_assign_of_phi? {s : Stmt} {φ : Phi} (h : s.phi? = some φ) :
    ∃ x, s = .assign x (.phi φ) := by
  cases s with
  | assign x r =>
    cases r with
    | phi ψ => exact ⟨x, by rw [Option.some.inj h]⟩
    | _ => cases h
  | _ => cases h

end Stmt

namespace Chain

variable {c c₁ c₂ : Chain} {a b l : Label} {d e : Option Label}

/-- The program order is the same, and so are the statements up to the arrangement of phi
arguments. -/
structure Alike (c c' : Chain) : Prop where
  labels : c'.labels = c.labels
  get? : ∀ l, Option.Rel Stmt.Alike (c.get? l) (c'.get? l)

/-! ### One excision -/

/-- `c'` is what the excision of `l` makes of `c`. -/
structure Excised (c : Chain) (l : Label) (d : Option Label) (c' : Chain) : Prop where
  wellFormed : c.WellFormed
  landing : c.landing l = .ok d
  erases : c.Erases (c.bypass l (d.getD l)) l c'
  count_phiPreds : ∀ q s, c.get? q = some s → s.phiPreds.count l ≤ 1

theorem WellFormed.excised (hc : c.WellFormed) {s : Stmt} (hs : (c.excise l).result = .ok s) :
    ∃ d, c.Excised l d (c.excise l).chain := by
  obtain ⟨d, hl, her⟩ := hc.excised_of_result hs
  exact ⟨d, hc, hl, her, fun q t ht => hc.count_phiPreds_of_result hs ht⟩

namespace Excised

theorem edge_iff (h : c.Excised a d c₁) (p q : Label) : c₁.Edge p q ↔ c.Around a p q :=
  h.wellFormed.edge_excised_iff h.landing h.erases p q

/-- Where a jump goes once `a` is gone. -/
theorem redirect_eq_iff (h : c.Excised a d c₁) {k t y : Label} (ht : c.Edge k t) :
    Stmt.redirect a (d.getD a) t = y ↔ t = y ∧ y ≠ a ∨ t = a ∧ c.Edge a y := by
  rw [h.wellFormed.redirect_eq_iff h.landing ht]
  refine or_congr_right (and_congr_right fun hta => ?_)
  exact (h.wellFormed.edge_of_landing h.landing (hta ▸ ht) y).symm

theorem edge_redirect (h : c.Excised a d c₁) {k t : Label} (hk : k ≠ a) (ht : c.Edge k t) :
    c₁.Edge k (Stmt.redirect a (d.getD a) t) := by
  rw [h.edge_iff]
  rcases (h.redirect_eq_iff ht).mp rfl with ⟨hty, hne⟩ | ⟨rfl, hay⟩
  · exact .inl ⟨hty ▸ ht, hk, hne⟩
  · exact .inr ⟨ht, hay⟩

theorem ne_of_contains (h : c.Excised a d c₁) (hb : c₁.contains b = true) : b ≠ a :=
  ((h.erases.contains_iff b).mp hb).1

/-! ### Two excisions -/

/-- Two statements that are both excised do not lead to each other. -/
theorem not_edge_both (h : c.Excised a d c₁) (h' : c₁.Excised b e c₂) :
    ¬ (c.Edge a b ∧ c.Edge b a) := fun ⟨hab, hba⟩ =>
  h'.wellFormed.not_edge_self h'.landing ((h.edge_iff b b).mpr (.inr ⟨hba, hab⟩))

theorem ne (h : c.Excised a d c₁) (h' : c₁.Excised b e c₂) : b ≠ a :=
  h.ne_of_contains (contains_iff.mpr (WellFormed.get?_of_landing h'.landing))

/-- Where a jump goes once `a` and `b` are gone, whichever was excised first. -/
theorem redirect_twice_eq_iff (h : c.Excised a d c₁) (h' : c₁.Excised b e c₂) {k t y : Label}
    (hk : k ≠ a) (ht : c.Edge k t) :
    Stmt.redirect b (e.getD b) (Stmt.redirect a (d.getD a) t) = y ↔
      t = y ∧ y ≠ a ∧ y ≠ b ∨ t = a ∧ c.Around b a y ∨ t = b ∧ c.Around a b y := by
  have hne := h.ne h'
  have hboth := h.not_edge_both h'
  have haa := h.wellFormed.not_edge_self h.landing
  have hstep : c.Edge a b → (c.Around a b y ↔ c.Edge b y) := by
    intro hab
    have hba : ¬ c.Edge b a := fun hba => hboth ⟨hab, hba⟩
    have hya : c.Edge b y → y ≠ a := fun hby he => hba (he ▸ hby)
    simpa [Around, hba, hne] using hya
  rw [h'.redirect_eq_iff (h.edge_redirect hk ht), h.redirect_eq_iff ht, h.redirect_eq_iff ht,
    h.edge_iff]
  constructor
  · rintro (⟨⟨hty, hya⟩ | ⟨hta, hay⟩, hyb⟩ | ⟨⟨htb, -⟩ | ⟨hta, hab⟩, hby⟩)
    · exact .inl ⟨hty, hya, hyb⟩
    · exact .inr (.inl ⟨hta, .inl ⟨hay, hne.symm, hyb⟩⟩)
    · exact .inr (.inr ⟨htb, hby⟩)
    · exact .inr (.inl ⟨hta, .inr ⟨hab, (hstep hab).mp hby⟩⟩)
  · rintro (⟨hty, hya, hyb⟩ | ⟨hta, ⟨hay, -, hyb⟩ | ⟨hab, hby⟩⟩ | ⟨htb, hby⟩)
    · exact .inl ⟨.inl ⟨hty, hya⟩, hyb⟩
    · exact .inl ⟨.inr ⟨hta, hay⟩, hyb⟩
    · exact .inr ⟨.inr ⟨hta, hab⟩, (hstep hab).mpr hby⟩
    · exact .inr ⟨.inl ⟨htb, hne⟩, hby⟩

/-- Which arguments a phi has once `a` and `b` are gone, whichever was excised first. -/
theorem mem_args_twice_iff (h : c.Excised a d c₁) (h' : c₁.Excised b e c₂) {q : Label} {s : Stmt}
    {φ : Phi} (hs : c.get? q = some s) (hφ : s.phi? = some φ) (hq : q ≠ a) {x : Phi.Arg} :
    x ∈ ((φ.reroute a (c.controlPreds a)).reroute b (c₁.controlPreds b)).args ↔
      x ∈ φ.args ∧ x.pred ≠ a ∧ x.pred ≠ b ∨ ⟨x.value, a⟩ ∈ φ.args ∧ c.Around b x.pred a ∨
        ⟨x.value, b⟩ ∈ φ.args ∧ c.Around a x.pred b := by
  have hne := h.ne h'
  have hboth := h.not_edge_both h'
  have hstep : c.Edge b a → (c.Around a x.pred b ↔ c.Edge x.pred b) := by
    intro hba
    have hab : ¬ c.Edge a b := fun hab => hboth ⟨hab, hba⟩
    have hpa : c.Edge x.pred b → x.pred ≠ a := fun hpb he => hab (he ▸ hpb)
    simpa [Around, hab, hne] using hpa
  have hcount : φ.preds.count a ≤ 1 := by
    have hcount := h.count_phiPreds q s hs
    rwa [Stmt.phiPreds, hφ] at hcount
  have hcount' : (φ.reroute a (c.controlPreds a)).preds.count b ≤ 1 := by
    have hs' : c₁.get? q = some (c.bypass a (d.getD a) s) := by
      rw [h.erases.get?, if_neg hq, hs, Option.map_some]
    have hcount' := h'.count_phiPreds q _ hs'
    rwa [Stmt.phiPreds, phi?_bypass, hφ] at hcount'
  rw [Phi.mem_args_reroute hcount', Phi.mem_args_reroute hcount, Phi.mem_args_reroute hcount,
    h.wellFormed.mem_controlPreds, h.wellFormed.mem_controlPreds, h'.wellFormed.mem_controlPreds,
    h.edge_iff]
  constructor
  · rintro (⟨⟨hx, hpa⟩ | ⟨hpa, hxa⟩, hpb⟩ | ⟨hpb, ⟨hxb, -⟩ | ⟨hba, hxa⟩⟩)
    · exact .inl ⟨hx, hpa, hpb⟩
    · exact .inr (.inl ⟨hxa, .inl ⟨hpa, hpb, hne.symm⟩⟩)
    · exact .inr (.inr ⟨hxb, hpb⟩)
    · exact .inr (.inl ⟨hxa, .inr ⟨(hstep hba).mp hpb, hba⟩⟩)
  · rintro (⟨hx, hpa, hpb⟩ | ⟨hxa, ⟨hpa, hpb, -⟩ | ⟨hpb, hba⟩⟩ | ⟨hxb, hpb⟩)
    · exact .inl ⟨.inl ⟨hx, hpa⟩, hpb⟩
    · exact .inl ⟨.inr ⟨hpa, hxa⟩, hpb⟩
    · exact .inr ⟨(hstep hba).mpr hpb, .inr ⟨hba, hxa⟩⟩
    · exact .inr ⟨hpb, .inl ⟨hxb, hne⟩⟩

theorem get?_twice (h : c.Excised a d c₁) (h' : c₁.Excised b e c₂) {k : Label} (hka : k ≠ a)
    (hkb : k ≠ b) :
    c₂.get? k = (c.get? k).map fun s => c₁.bypass b (e.getD b) (c.bypass a (d.getD a) s) := by
  rw [h'.erases.get?, if_neg hkb, h.erases.get?, if_neg hka, Option.map_map]
  rfl

theorem get?_gone (h : c.Excised a d c₁) (h' : c₁.Excised b e c₂) {k : Label}
    (hk : k = a ∨ k = b) : c₂.get? k = none := by
  rw [h'.erases.get?, h.erases.get?]
  rcases hk with rfl | rfl <;> simp

theorem labels_twice (h : c.Excised a d c₁) (h' : c₁.Excised b e c₂) :
    c₂.labels = (c.labels.erase a).erase b := by
  rw [h'.erases.labels, h.erases.labels]

end Excised

/-! ### Both orders -/

theorem bypass_of_phi?_eq_none {s : Stmt} (hs : s.phi? = none) (c : Chain) (l new : Label) :
    c.bypass l new s = s.retarget l new := by
  have hsame : s.mapPhi (·.reroute l (c.controlPreds l)) = s :=
    Stmt.mapPhi_reroute_of_not_mem (by simp [Stmt.phiPreds, hs]) _
  rw [bypass, hsame]

variable {c₁' c₂' : Chain} {d' e' : Option Label}

theorem Excised.alike_at (h : c.Excised a d c₁) (h' : c₁.Excised b e c₂)
    (g : c.Excised b e' c₁') (g' : c₁'.Excised a d' c₂') {k : Label} {s : Stmt}
    (hs : c.get? k = some s) (hka : k ≠ a) (hkb : k ≠ b) :
    Stmt.Alike (c₁.bypass b (e.getD b) (c.bypass a (d.getD a) s))
      (c₁'.bypass a (d'.getD a) (c.bypass b (e'.getD b) s)) := by
  cases hφ : s.phi? with
  | none =>
    have hredirect : ∀ t ∈ s.jumpTargets,
        Stmt.redirect b (e.getD b) (Stmt.redirect a (d.getD a) t) =
          Stmt.redirect a (d'.getD a) (Stmt.redirect b (e'.getD b) t) := by
      intro t ht
      have hedge : c.Edge k t := ⟨s, hs, .inl ht⟩
      rw [h.redirect_twice_eq_iff h' hka hedge]
      rcases (g.redirect_twice_eq_iff g' hkb hedge).mp rfl with ⟨hty, hyb, hya⟩ | hb | ha
      · exact .inl ⟨hty, hya, hyb⟩
      · exact .inr (.inr hb)
      · exact .inr (.inl ha)
    rw [bypass_of_phi?_eq_none hφ, bypass_of_phi?_eq_none hφ,
      bypass_of_phi?_eq_none (by rwa [Stmt.phi?_retarget]),
      bypass_of_phi?_eq_none (by rwa [Stmt.phi?_retarget])]
    exact .of_eq (Stmt.retarget_comm hredirect)
  | some φ =>
    obtain ⟨x, rfl⟩ := Stmt.eq_assign_of_phi? hφ
    refine ⟨rfl, fun y => ?_⟩
    rw [h.mem_args_twice_iff h' hs hφ hka, g.mem_args_twice_iff g' hs hφ hkb]
    rw [or_comm (b := _ ∧ c.Around a _ _), and_comm (a := y.pred ≠ a)]

theorem Excised.alike (h : c.Excised a d c₁) (h' : c₁.Excised b e c₂) (g : c.Excised b e' c₁')
    (g' : c₁'.Excised a d' c₂') : c₂.Alike c₂' where
  labels := by rw [h.labels_twice h', g.labels_twice g', List.erase_comm]
  get? k := by
    by_cases hk : k = a ∨ k = b
    · rw [h.get?_gone h' hk, g.get?_gone g' hk.symm]
      exact .none
    · obtain ⟨hka, hkb⟩ := not_or.mp hk
      rw [h.get?_twice h' hka hkb, g.get?_twice g' hkb hka]
      cases hs : c.get? k with
      | none => exact .none
      | some s => exact .some (h.alike_at h' g g' hs hka hkb)

/-- Where two statements can be excised one after the other in either order, both orders lead to
the same chain, up to the arrangement of phi arguments. -/
theorem Reachable.excise_comm (h : c.Reachable) {s s' t t' : Stmt}
    (ha : (c.excise a).result = .ok s) (hab : ((c.excise a).chain.excise b).result = .ok t)
    (hb : (c.excise b).result = .ok t') (hba : ((c.excise b).chain.excise a).result = .ok s') :
    ((c.excise a).chain.excise b).chain.Alike ((c.excise b).chain.excise a).chain := by
  have hc := h.wellFormed
  obtain ⟨d, hex⟩ := hc.excised ha
  obtain ⟨e, hex'⟩ := (hc.chain_excise a).excised hab
  obtain ⟨e', hex₂⟩ := hc.excised hb
  obtain ⟨d', hex₂'⟩ := (hc.chain_excise b).excised hba
  exact hex.alike hex' hex₂ hex₂'

/-- Two gotos to a phi, whose arguments end up in the order of the excisions. -/
theorem excise_comm_of_gotos :
    let c := run [.push (.branch (.var ⟨0⟩) ⟨3⟩), .push (.branch (.var ⟨1⟩) ⟨4⟩), .push (.goto ⟨5⟩),
      .push (.goto ⟨5⟩), .push (.goto ⟨5⟩), .push (.assign ⟨4⟩
        (.phi ⟨[⟨.var ⟨3⟩, ⟨2⟩⟩, ⟨.const (.int 1), ⟨3⟩⟩, ⟨.const (.int 2), ⟨4⟩⟩]⟩))] empty
    let c₁ := ((c.excise ⟨3⟩).chain.excise ⟨4⟩).chain
    let c₂ := ((c.excise ⟨4⟩).chain.excise ⟨3⟩).chain
    c₁.Alike c₂ ∧ c₁.get? ⟨5⟩ ≠ c₂.get? ⟨5⟩ := by
  intro c c₁ c₂
  have hc : c.Reachable := ⟨_, rfl⟩
  have ha : (c.excise ⟨3⟩).result = .ok (.goto ⟨5⟩) := by decide +kernel
  have hab : ((c.excise ⟨3⟩).chain.excise ⟨4⟩).result = .ok (.goto ⟨5⟩) := by decide +kernel
  have hb : (c.excise ⟨4⟩).result = .ok (.goto ⟨5⟩) := by decide +kernel
  have hba : ((c.excise ⟨4⟩).chain.excise ⟨3⟩).result = .ok (.goto ⟨5⟩) := by decide +kernel
  exact ⟨hc.excise_comm ha hab hb hba, by decide +kernel⟩

end Chain

end LinearSSA
