import LinearSSA.Proofs.Reachable

/-! Control flow after a removal. An edge that led to the removed statement leads to its landing
instead, every other edge of a remaining statement is as it was, and so the walks of the chain are
the old ones without their visits to the removed statement. -/

namespace LinearSSA.Chain

variable {c c' : Chain} {l : Label} {d : Option Label}

/-! ### Edges -/

namespace WellFormed

/-- Where an edge leads to `l`, the landing takes its place. -/
theorem redirect_eq_iff (hc : c.WellFormed) (hl : c.landing l = .ok d) {a t : Label}
    (ht : c.Edge a t) (b : Label) :
    Stmt.redirect l (d.getD l) t = b ↔ t = b ∧ b ≠ l ∨ t = l ∧ d = some b := by
  by_cases htl : t = l
  · subst htl
    cases d with
    | none => exact absurd ht ((hc.landing_eq_none_iff.mp hl).2 a)
    | some d =>
      have hd : Stmt.redirect t d t = d := if_pos rfl
      rw [Option.getD_some, hd, Option.some.injEq]
      constructor
      · exact fun h => .inr ⟨rfl, h⟩
      · rintro (⟨rfl, h⟩ | ⟨-, h⟩)
        · exact absurd rfl h
        · exact h
  · rw [Stmt.redirect_of_ne htl]
    constructor
    · rintro rfl
      exact .inl ⟨rfl, htl⟩
    · rintro (⟨h, -⟩ | ⟨h, -⟩)
      · exact h
      · exact absurd h htl

/-- What falls into `l` falls into the landing afterwards. -/
theorem after?_erase (hc : c.WellFormed) (hl : c.landing l = .ok d)
    (hlabels : c'.labels = c.labels.erase l) {a : Label} {s : Stmt} (hs : c.get? a = some s)
    (ha : a ≠ l) (hf : s.fallsThrough = true) :
    c'.after? a = (c.after? a).map (Stmt.redirect l (d.getD l)) := by
  have hstep : c'.after? a = if c.after? a = some l then c.after? l else c.after? a := by
    simp only [after?_eq_follower, hlabels, follower_erase ha hc.nodup]
  rw [hstep]
  cases hb : c.after? a with
  | none => rfl
  | some b =>
    have hab : c.Edge a b := ⟨s, hs, .inr ⟨hf, hb⟩⟩
    by_cases hbl : b = l
    · subst hbl
      cases d with
      | none => exact absurd hab ((hc.landing_eq_none_iff.mp hl).2 a)
      | some d =>
        have hinto : c.fallsInto? b = some a :=
          (fallsInto?_eq_some_iff hc.nodup).mpr ⟨s, hs, hf, hb⟩
        have hd := (hc.landing_eq_some_iff.mp hl).after?_of_fallsInto? (by rw [hinto]; rfl)
        simp [hd, Stmt.redirect]
    · have hne : some b ≠ some l := fun he => hbl (Option.some.inj he)
      rw [if_neg hne, Option.map_some, Stmt.redirect_of_ne hbl]

/-- Control that enters `l` leaves it for the landing. -/
theorem edge_of_landing (hc : c.WellFormed) (hl : c.landing l = .ok d) {a : Label}
    (ha : c.Edge a l) (b : Label) : c.Edge l b ↔ d = some b := by
  cases d with
  | none => exact absurd ha ((hc.landing_eq_none_iff.mp hl).2 a)
  | some d => rw [(hc.landing_eq_some_iff.mp hl).edge_iff, Option.some.injEq, eq_comm]

variable {f : Stmt → Stmt}
variable (hj : ∀ s, (f s).jumpTargets = s.jumpTargets.map (Stmt.redirect l (d.getD l)))
variable (hf : ∀ s, (f s).fallsThrough = s.fallsThrough)

include hj hf

/-- The edges of a remaining statement lead where they led, by way of `l` or not. -/
theorem edge_erased (hc : c.WellFormed) (hl : c.landing l = .ok d) (hr : c.Erases f l c')
    (a b : Label) :
    c'.Edge a b ↔ a ≠ l ∧ (c.Edge a b ∧ b ≠ l ∨ c.Edge a l ∧ d = some b) := by
  by_cases ha : a = l
  · subst ha
    simp [Edge, hr.get?]
  cases hs : c.get? a with
  | none => simp [Edge, hr.get?, hs]
  | some s =>
    have hs' : c'.get? a = some (f s) := by rw [hr.get?, if_neg ha, hs, Option.map_some]
    have hedge : c'.Edge a b ↔ ∃ t, c.Edge a t ∧ Stmt.redirect l (d.getD l) t = b := by
      simp only [edge_iff hs', edge_iff hs, hj, hf, List.mem_map, or_and_right, exists_or]
      refine or_congr_right ?_
      by_cases hfall : s.fallsThrough = true
      · simp [hc.after?_erase hl hr.labels hs ha hfall, hfall]
      · simp [hfall]
    rw [hedge, and_iff_right ha]
    constructor
    · rintro ⟨t, ht, hb⟩
      rcases (hc.redirect_eq_iff hl ht b).mp hb with ⟨rfl, hne⟩ | ⟨rfl, hd⟩
      · exact .inl ⟨ht, hne⟩
      · exact .inr ⟨ht, hd⟩
    · rintro (⟨ht, hne⟩ | ⟨ht, hd⟩)
      · exact ⟨b, ht, (hc.redirect_eq_iff hl ht b).mpr (.inl ⟨rfl, hne⟩)⟩
      · exact ⟨l, ht, (hc.redirect_eq_iff hl ht b).mpr (.inr ⟨rfl, hd⟩)⟩

/-! ### Walks -/

/-- A walk of what is left takes a step more where the old chain went by way of `l`. -/
theorem exists_walk (hc : c.WellFormed) (hl : c.landing l = .ok d) (hr : c.Erases f l c')
    {w : List Label} (hw : c'.Walk w) :
    ∃ v, c.Walk v ∧ v.head? = w.head? ∧ v.getLast? = w.getLast? ∧ v.filter (· ≠ l) = w := by
  induction w with
  | nil => exact ⟨[], trivial, rfl, rfl, rfl⟩
  | cons a w ih =>
    obtain ⟨ha, hca⟩ := (hr.contains_iff a).mp hw.contains
    cases w with
    | nil => exact ⟨[a], hca, rfl, rfl, by simp [ha]⟩
    | cons b w =>
      obtain ⟨hab, hw⟩ := hw
      obtain ⟨v, hv, hhead, hlast, hfilter⟩ := ih hw
      obtain ⟨v, rfl⟩ : ∃ v', v = b :: v' := by
        cases v with
        | nil => cases hhead
        | cons b' v => exact ⟨v, by rw [Option.some.inj hhead]⟩
      rcases ((hc.edge_erased hj hf hl hr a b).mp hab).2 with ⟨h, -⟩ | ⟨h, hd⟩
      · refine ⟨a :: b :: v, ⟨h, hv⟩, rfl, hlast, ?_⟩
        rw [List.filter_cons, hfilter]
        simp [ha]
      · have hlb : c.Edge l b := (hc.edge_of_landing hl h b).mpr hd
        refine ⟨a :: l :: b :: v, ⟨h, hlb, hv⟩, rfl, hlast, ?_⟩
        rw [List.filter_cons, List.filter_cons, hfilter]
        simp [ha]

/-- A walk that does not end at `l` is one of what is left without its visits to `l`. -/
theorem walk_filter (hc : c.WellFormed) (hl : c.landing l = .ok d) (hr : c.Erases f l c')
    {v : List Label} (hv : c.Walk v) (hlast : v.getLast? ≠ some l) :
    c'.Walk (v.filter (· ≠ l)) := by
  have hedge := hc.edge_erased hj hf hl hr
  induction v with
  | nil => trivial
  | cons a v ih =>
    cases v with
    | nil =>
      have ha : a ≠ l := fun he => hlast (by rw [he]; rfl)
      rw [List.filter_cons, if_pos (by simpa using ha)]
      exact (hr.contains_iff a).mpr ⟨ha, hv⟩
    | cons b v =>
      obtain ⟨hab, hv⟩ := hv
      have hw := ih hv hlast
      by_cases ha : a = l
      · rwa [List.filter_cons, if_neg (by simpa using ha)]
      rw [List.filter_cons, if_pos (by simpa using ha)]
      by_cases hb : b = l
      · -- the walk goes on from `l`, to the landing
        subst hb
        cases v with
        | nil => exact absurd rfl hlast
        | cons e v =>
          have hd : d = some e := (hc.edge_of_landing hl hab e).mp hv.1
          have hae : c'.Edge a e := (hedge a e).mpr ⟨ha, .inr ⟨hab, hd⟩⟩
          have hne : e ≠ b := fun he => hc.not_edge_self hl (he ▸ hv.1)
          rw [List.filter_cons, if_neg (by simp), List.filter_cons,
            if_pos (by simpa using hne)] at hw ⊢
          exact ⟨hae, hw⟩
      · rw [List.filter_cons, if_pos (by simpa using hb)] at hw ⊢
        exact ⟨(hedge a b).mpr ⟨ha, .inl ⟨hab, hb⟩⟩, hw⟩

/-- The walks of what is left are the walks between other statements than `l`, without the
visits to `l`. -/
theorem walk_erased (hc : c.WellFormed) (hl : c.landing l = .ok d) (hr : c.Erases f l c')
    (w : List Label) :
    c'.Walk w ↔
      ∃ v, c.Walk v ∧ v.head? ≠ some l ∧ v.getLast? ≠ some l ∧ v.filter (· ≠ l) = w := by
  constructor
  · intro hw
    obtain ⟨v, hv, hhead, hlast, hfilter⟩ := hc.exists_walk hj hf hl hr hw
    have hnot : l ∉ w := by
      rw [← hfilter]
      simp
    refine ⟨v, hv, fun h => hnot ?_, fun h => hnot ?_, hfilter⟩
    · exact List.mem_of_mem_head? (hhead ▸ h)
    · exact List.mem_of_getLast? (hlast ▸ h)
  · rintro ⟨v, hv, -, hlast, rfl⟩
    exact hc.walk_filter hj hf hl hr hv hlast

end WellFormed

/-- A removal that is done preserves the control flow between the remaining statements. -/
theorem Reachable.remove_preserves_flow (h : c.Reachable) {s : Stmt}
    (hs : (c.remove l).result = .ok s) :
    ∃ d, c.landing l = .ok d ∧
      (∀ w, (c.remove l).chain.Walk w ↔
        ∃ v, c.Walk v ∧ v.head? ≠ some l ∧ v.getLast? ≠ some l ∧ v.filter (· ≠ l) = w) ∧
      (∀ a b, (c.remove l).chain.Edge a b ↔
        a ≠ l ∧ (c.Edge a b ∧ b ≠ l ∨ c.Edge a l ∧ d = some b)) ∧
      (d = none → ∀ a, ¬ c.Edge a l) := by
  have hc := h.wellFormed
  rcases hc.remove_cases l with ⟨e, he⟩ | ⟨d, s, c', hl, -, -, hdone, hrem⟩
  · rw [he] at hs
    cases hs
  · have hj := Stmt.jumpTargets_retarget l (d.getD l)
    have hf := Stmt.fallsThrough_retarget l (d.getD l)
    rw [hdone]
    refine ⟨d, hl, hc.walk_erased hj hf hl hrem, hc.edge_erased hj hf hl hrem, ?_⟩
    rintro rfl
    exact (hc.landing_eq_none_iff.mp hl).2

/-- A branch to the next line that is fallen into and jumped to. -/
theorem remove_preserves_flow_of_branch :
    let c := run [.push .nop, .push (.branch (.const .null) ⟨2⟩), .push .nop, .push (.goto ⟨1⟩)]
      empty
    (c.remove ⟨1⟩).result = .ok (.branch (.const .null) ⟨2⟩) ∧
      (c.remove ⟨1⟩).chain.Walk [⟨0⟩, ⟨2⟩, ⟨3⟩, ⟨2⟩] := by
  intro c
  have hs : (c.remove ⟨1⟩).result = .ok (.branch (.const .null) ⟨2⟩) := by rfl
  obtain ⟨d, -, hwalk, -, -⟩ := Reachable.remove_preserves_flow ⟨_, rfl⟩ hs
  have h01 : c.Edge ⟨0⟩ ⟨1⟩ := ⟨.nop, by rfl, .inr ⟨by rfl, by rfl⟩⟩
  have h12 : c.Edge ⟨1⟩ ⟨2⟩ := ⟨.branch (.const .null) ⟨2⟩, by rfl, .inl (by decide)⟩
  have h23 : c.Edge ⟨2⟩ ⟨3⟩ := ⟨.nop, by rfl, .inr ⟨by rfl, by rfl⟩⟩
  have h31 : c.Edge ⟨3⟩ ⟨1⟩ := ⟨.goto ⟨1⟩, by rfl, .inl (by decide)⟩
  have hv : c.Walk [⟨0⟩, ⟨1⟩, ⟨2⟩, ⟨3⟩, ⟨1⟩, ⟨2⟩] := ⟨h01, h12, h23, h31, h12, by rfl⟩
  exact ⟨hs, (hwalk _).mpr ⟨_, hv, by decide, by decide, by decide⟩⟩

end LinearSSA.Chain
