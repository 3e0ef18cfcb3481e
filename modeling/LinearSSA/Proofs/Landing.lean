import LinearSSA.Chain.Flow
import LinearSSA.Proofs.Retargeting

/-! Where control entering a statement ends up without it, read off the control flow graph. A
statement that no edge leads to has no landing; any other one lands at the single statement that
its edges lead to, which has to be the next line if the statement falls through or is fallen
into. -/

namespace LinearSSA.Chain

variable {c : Chain}

/-- The line that falls into `b` is the one before it. -/
theorem fallsInto?_eq_some_iff (hd : c.labels.Nodup) {a b : Label} :
    c.fallsInto? b = some a ↔
      ∃ s, c.get? a = some s ∧ s.fallsThrough = true ∧ c.after? a = some b := by
  rw [fallsInto?, Option.filter_eq_some_iff, before?_eq_some_iff_after? hd]
  cases hs : c.get? a with
  | none => simp
  | some s => simp [and_comm]

theorem edge_iff {a b : Label} {s : Stmt} (hs : c.get? a = some s) :
    c.Edge a b ↔ b ∈ s.jumpTargets ∨ s.fallsThrough = true ∧ c.after? a = some b := by
  simp [Edge, hs]

/-- An edge is a jump or leads to the line that is fallen into. -/
theorem edge_iff_fallsInto? (hd : c.labels.Nodup) {a b : Label} :
    c.Edge a b ↔ (∃ s, c.get? a = some s ∧ b ∈ s.jumpTargets) ∨ c.fallsInto? b = some a := by
  rw [fallsInto?_eq_some_iff hd]
  constructor
  · rintro ⟨s, hs, hj | hf⟩
    · exact .inl ⟨s, hs, hj⟩
    · exact .inr ⟨s, hs, hf⟩
  · rintro (⟨s, hs, hj⟩ | ⟨s, hs, hf⟩)
    · exact ⟨s, hs, .inl hj⟩
    · exact ⟨s, hs, .inr hf⟩

theorem mem_exits {l b : Label} {s : Stmt} (hs : c.get? l = some s) :
    b ∈ c.exits l s ↔ c.Edge l b := by
  rw [edge_iff hs, exits, List.mem_append]
  cases s.fallsThrough <;> simp

/-- Control entering `l` ends up at `d` when `l` is taken out. -/
structure LandsAt (c : Chain) (l d : Label) : Prop where
  ne : d ≠ l
  edge_iff : ∀ b, c.Edge l b ↔ b = d
  entered : ∃ a, c.Edge a l
  /-- Falling through is falling into `d`. -/
  after? : ∀ s, c.get? l = some s → s.fallsThrough = true → c.after? l = some d
  /-- What falls into `l` will fall into `d`. -/
  after?_of_fallsInto? : (c.fallsInto? l).isSome = true → c.after? l = some d

/-- Control that goes on from `l` to the next line finds none. -/
def RunsOut (c : Chain) (l : Label) : Prop :=
  ∃ s, c.get? l = some s ∧ s.fallsThrough = true ∧ c.after? l = none

namespace WellFormed

/-- Control that does not jump out of the chain goes on to a statement of the chain. -/
theorem contains_of_edge (hc : c.WellFormed) {a b : Label} (h : c.Edge a b)
    (hj : ∀ s, c.get? a = some s → b ∈ s.jumpTargets → c.contains b = true) :
    c.contains b = true := by
  obtain ⟨s, hs, hb | ⟨-, hb⟩⟩ := h
  · exact hj s hs hb
  · rw [after?_eq_follower] at hb
    exact (hc.mem_labels b).mp (mem_of_follower hb)

theorem entered_iff (hc : c.WellFormed) {l : Label} :
    (∃ a, c.Edge a l) ↔ c.isBranchedTo l = true ∨ (c.fallsInto? l).isSome = true := by
  simp only [edge_iff_fallsInto? hc.nodup, hc.isBranchedTo_iff, Option.isSome_iff_exists,
    exists_or]

theorem landing_of_get? (hc : c.WellFormed) {l : Label} {s : Stmt} (hs : c.get? l = some s) :
    c.landing l =
      if !c.isBranchedTo l && !(c.fallsInto? l).isSome then .ok none
      else if s.fallsThrough && (c.after? l).isNone then .error (.noSuccessor l)
      else match c.exits l s with
        | [] => .error (.flowNotPreserved l)
        | d :: ds =>
          if ds.all (· = d) && d ≠ l && (!(c.fallsInto? l).isSome || c.after? l = some d) then
            .ok (some d)
          else .error (.flowNotPreserved l) := by
  obtain ⟨i, hi⟩ := hc.exists_position? hs
  unfold landing
  split
  · next s' _ hs' =>
    obtain rfl : s = s' := Option.some.inj (hs.symm.trans hs')
    rfl
  · next h => exact absurd hs (h i s hi)

theorem get?_of_landing {l : Label} {d : Option Label} (h : c.landing l = .ok d) :
    ∃ s, c.get? l = some s := by
  unfold landing at h
  split at h
  · next s _ hs => exact ⟨s, hs⟩
  · cases h

theorem landing_eq_none_iff (hc : c.WellFormed) {l : Label} :
    c.landing l = .ok none ↔ c.contains l = true ∧ ∀ a, ¬ c.Edge a l := by
  rw [← not_exists, hc.entered_iff]
  constructor
  · intro h
    obtain ⟨s, hs⟩ := get?_of_landing h
    refine ⟨contains_iff.mpr ⟨s, hs⟩, ?_⟩
    rw [hc.landing_of_get? hs] at h
    split at h
    · next hn => simpa using hn
    · split at h
      · cases h
      · split at h
        · cases h
        · split at h <;> cases h
  · rintro ⟨hl, hn⟩
    obtain ⟨s, hs⟩ := contains_iff.mp hl
    rw [hc.landing_of_get? hs, if_pos (by simpa using hn)]

theorem landing_eq_some_iff (hc : c.WellFormed) {l d : Label} :
    c.landing l = .ok (some d) ↔ c.LandsAt l d := by
  constructor
  · intro h
    obtain ⟨s, hs⟩ := get?_of_landing h
    have hmem := fun b => mem_exits (b := b) hs
    rw [hc.landing_of_get? hs] at h
    split at h
    · cases h
    next hent =>
    split at h
    · cases h
    next hlast =>
    split at h
    · cases h
    next d' ds hex =>
    split at h
    · next hd =>
      cases h
      simp only [Bool.and_eq_true, List.all_eq_true, decide_eq_true_eq, Bool.or_eq_true,
        Bool.not_eq_true'] at hd
      obtain ⟨⟨hall, hne⟩, hfall⟩ := hd
      have hedge : ∀ b, c.Edge l b ↔ b = d := by
        intro b
        rw [← hmem b, hex, List.mem_cons]
        exact ⟨fun hb => hb.elim id fun hb => hall b hb, .inl⟩
      refine ⟨hne, hedge, hc.entered_iff.mpr ?_, fun t ht hft => ?_, fun hf => ?_⟩
      · cases hb : c.isBranchedTo l with
        | true => exact .inl rfl
        | false => exact .inr (Option.isSome_iff_ne_none.mpr (by simpa [hb] using hent))
      · obtain rfl : s = t := Option.some.inj (hs.symm.trans ht)
        obtain ⟨b, hb⟩ : ∃ b, c.after? l = some b := by
          rw [hft] at hlast
          exact Option.ne_none_iff_exists'.mp (by simpa using hlast)
        rw [hb, (hedge b).mp ⟨s, hs, .inr ⟨hft, hb⟩⟩]
      · exact hfall.resolve_left (by simp [hf])
    · cases h
  · intro h
    obtain ⟨s, hs, -⟩ := (h.edge_iff d).mpr rfl
    have hmem := fun b => mem_exits (b := b) hs
    rw [hc.landing_of_get? hs, if_neg, if_neg]
    · split
      · next hex =>
        have hd := (hmem d).mpr ((h.edge_iff d).mpr rfl)
        simp [hex] at hd
      · next d' ds hex =>
        have hall : ∀ b ∈ d' :: ds, b = d := fun b hb =>
          (h.edge_iff b).mp ((hmem b).mp (hex ▸ hb))
        obtain rfl : d' = d := hall d' (by simp)
        have hds : ds.all (· = d') = true := by
          simpa using fun b hb => hall b (List.mem_cons_of_mem _ hb)
        have hfall : (!(c.fallsInto? l).isSome || decide (c.after? l = some d')) = true := by
          cases hf : (c.fallsInto? l).isSome with
          | false => rfl
          | true => simp [h.after?_of_fallsInto? hf]
        rw [hds, hfall, if_pos (by simp [h.ne])]
    · intro hlast
      simp only [Bool.and_eq_true] at hlast
      simp [h.after? s hs hlast.1] at hlast
    · intro hent
      have := hc.entered_iff.mp h.entered
      simp only [Bool.and_eq_true, Bool.not_eq_true'] at hent
      simp [hent.1, hent.2] at this

/-- What a statement without a landing is refused for. -/
theorem landing_error_cases (hc : c.WellFormed) {l : Label} {e : Fault}
    (he : c.landing l = .error e) :
    e = .unknownStmt l ∧ c.get? l = none ∨ e = .noSuccessor l ∧ c.RunsOut l ∨
      e = .flowNotPreserved l ∧ ¬ c.RunsOut l := by
  cases hs : c.get? l with
  | none => exact .inl ⟨by simpa [landing, hs] using he.symm, rfl⟩
  | some s =>
    have hruns : c.RunsOut l ↔ (s.fallsThrough && (c.after? l).isNone) = true := by
      simp [RunsOut, hs]
    rw [hc.landing_of_get? hs] at he
    split at he
    · cases he
    · split at he
      · next hr =>
        cases he
        exact .inr (.inl ⟨rfl, hruns.mpr hr⟩)
      · next hr =>
        have hnot : ¬ c.RunsOut l := mt hruns.mp hr
        split at he
        · cases he
          exact .inr (.inr ⟨rfl, hnot⟩)
        · split at he <;> cases he
          exact .inr (.inr ⟨rfl, hnot⟩)

theorem landing_of_runsOut (hc : c.WellFormed) {l : Label} (ha : ∃ a, c.Edge a l)
    (hr : c.RunsOut l) : c.landing l = .error (.noSuccessor l) := by
  obtain ⟨s, hs, hfall, hlast⟩ := hr
  have hent : (!c.isBranchedTo l && !(c.fallsInto? l).isSome) = false := by
    simpa [or_iff_not_imp_left] using hc.entered_iff.mp ha
  rw [hc.landing_of_get? hs, hent, hfall, hlast]
  rfl

end WellFormed

/-! ### Statements with the same control flow -/

namespace Maps

variable {f : Stmt → Stmt} {c' : Chain}

theorem contains (h : c.Maps f c') (l : Label) : c'.contains l = c.contains l := by
  rw [Chain.contains, Chain.contains, h.get?, Option.isSome_map]

theorem position? (h : c.Maps f c') (l : Label) : c'.position? l = c.position? l := by
  rw [Chain.position?, Chain.position?, h.labels]

theorem after? (h : c.Maps f c') (l : Label) : c'.after? l = c.after? l := by
  rw [after?_eq_follower, after?_eq_follower, h.labels]

theorem before? (h : c.Maps f c') (l : Label) : c'.before? l = c.before? l := by
  rw [Chain.before?, Chain.before?, h.position?, h.labels]

variable (hj : ∀ s, (f s).jumpTargets = s.jumpTargets)
variable (hf : ∀ s, (f s).fallsThrough = s.fallsThrough)

include hf in
theorem fallsInto? (h : c.Maps f c') (l : Label) : c'.fallsInto? l = c.fallsInto? l := by
  rw [Chain.fallsInto?, Chain.fallsInto?, h.before?]
  congr 1
  funext p
  rw [h.get?, Option.any_map]
  congr 1
  funext s
  exact hf s

include hj in
theorem isBranchedTo (h : c.Maps f c') (hc : c.WellFormed) (l : Label) :
    c'.isBranchedTo l = c.isBranchedTo l := by
  rw [Bool.eq_iff_iff, h.wellFormed.isBranchedTo_iff, hc.isBranchedTo_iff]
  refine exists_congr fun a => ?_
  rw [h.get?]
  cases c.get? a with
  | none => simp
  | some s => simp [hj]

include hj hf

/-- Where `f` keeps jumps and falling through, the landings stay the same. -/
theorem landing (h : c.Maps f c') (hc : c.WellFormed) (l : Label) :
    c'.landing l = c.landing l := by
  cases hs : c.get? l with
  | none => simp [Chain.landing, h.get?, hs]
  | some s =>
    have hs' : c'.get? l = some (f s) := by rw [h.get?, hs, Option.map_some]
    have hex : c'.exits l (f s) = c.exits l s := by rw [exits, exits, hj, hf, h.after?]
    rw [h.wellFormed.landing_of_get? hs', hc.landing_of_get? hs, h.isBranchedTo hj hc,
      h.fallsInto? hf, h.after?, hex, hf]

end Maps

end LinearSSA.Chain
