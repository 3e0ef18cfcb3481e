import LinearSSA.Chain.Removal
import LinearSSA.Proofs.Index
import LinearSSA.Proofs.Order
import Mathlib.Data.List.Count

/-! Well-formed chains: the program order names each statement once, and the index records the
references that the statements hold, each as often as it is held. A new statement, a change of
one and the removal of one that nothing refers to keep a chain well formed. -/

namespace LinearSSA

namespace Stmt

variable (s : Stmt) (t : Label)

theorem mem_refs_jump : ⟨t, .jump⟩ ∈ s.refs ↔ t ∈ s.jumpTargets := by
  simp [refs]

theorem mem_refs_provenance : ⟨t, .provenance⟩ ∈ s.refs ↔ t ∈ s.phiPreds := by
  simp [refs]

theorem count_refs_jump : s.refs.count ⟨t, .jump⟩ = s.jumpTargets.count t := by
  have hrest : (s.phiPreds.map (Ref.mk · .provenance)).count ⟨t, .jump⟩ = 0 :=
    List.count_eq_zero.mpr (by simp)
  have hinj : Function.Injective (Ref.mk · .jump) := fun _ _ h => (Ref.mk.inj h).1
  rw [refs, List.count_append, hrest, Nat.add_zero, List.count_map_of_injective _ _ hinj]

theorem count_refs_provenance : s.refs.count ⟨t, .provenance⟩ = s.phiPreds.count t := by
  have hrest : (s.jumpTargets.map (Ref.mk · .jump)).count ⟨t, .provenance⟩ = 0 :=
    List.count_eq_zero.mpr (by simp)
  have hinj : Function.Injective (Ref.mk · .provenance) := fun _ _ h => (Ref.mk.inj h).1
  rw [refs, List.count_append, hrest, Nat.zero_add, List.count_map_of_injective _ _ hinj]

end Stmt

namespace Chain

/-- The references that the statement under `l` holds; none if there is no statement. -/
def refsOf (c : Chain) (l : Label) : List Ref := ((c.get? l).map (·.refs)).getD []

theorem refsOf_of_get? {c : Chain} {l : Label} {s : Stmt} (h : c.get? l = some s) :
    c.refsOf l = s.refs := by
  rw [refsOf, h]
  rfl

structure WellFormed (c : Chain) : Prop where
  nodup : c.labels.Nodup
  /-- The program order names the labels that have a statement. -/
  mem_labels : ∀ l, l ∈ c.labels ↔ c.contains l = true
  /-- A reference is recorded as often as it is held. -/
  count_index : ∀ l r, c.index.count l r = (c.refsOf l).count r
  tight : c.index.Tight

namespace WellFormed

variable {c : Chain}

theorem empty : Chain.empty.WellFormed where
  nodup := List.nodup_nil
  mem_labels l := by simp [contains]
  count_index l r := by simp [refsOf, Chain.empty, Chain.get?]
  tight := RefIndex.tight_empty

theorem mem_labels_of_get? (hc : c.WellFormed) {l : Label} {s : Stmt} (h : c.get? l = some s) :
    l ∈ c.labels :=
  (hc.mem_labels l).mpr (contains_iff.mpr ⟨s, h⟩)

theorem get?_of_not_mem (hc : c.WellFormed) {l : Label} (h : l ∉ c.labels) : c.get? l = none := by
  refine Option.eq_none_iff_forall_ne_some.mpr fun s hs => ?_
  exact h (hc.mem_labels_of_get? hs)

theorem exists_get? (hc : c.WellFormed) {l : Label} (h : l ∈ c.labels) : ∃ s, c.get? l = some s :=
  contains_iff.mp ((hc.mem_labels l).mp h)

theorem exists_position? (hc : c.WellFormed) {l : Label} {s : Stmt} (h : c.get? l = some s) :
    ∃ i, c.position? l = some i :=
  Option.isSome_iff_exists.mp (position?_isSome.mpr (hc.mem_labels_of_get? h))

/-- The entries for `t` are the statements that refer to it. -/
theorem mem_refsTo (hc : c.WellFormed) {l t : Label} {kind : RefKind} :
    ⟨l, kind⟩ ∈ c.refsTo t ↔ ∃ s, c.get? l = some s ∧ ⟨t, kind⟩ ∈ s.refs := by
  rw [refsTo, ← c.index.count_pos_iff l ⟨t, kind⟩, hc.count_index, List.count_pos_iff, refsOf]
  cases c.get? l <;> simp

theorem isBranchedTo_iff (hc : c.WellFormed) {l : Label} :
    c.isBranchedTo l = true ↔ ∃ a s, c.get? a = some s ∧ l ∈ s.jumpTargets := by
  simp only [isBranchedTo, List.any_eq_true]
  constructor
  · rintro ⟨⟨a, kind⟩, hm, hk⟩
    obtain rfl : kind = .jump := of_decide_eq_true hk
    obtain ⟨s, hs, hr⟩ := hc.mem_refsTo.mp hm
    exact ⟨a, s, hs, (s.mem_refs_jump l).mp hr⟩
  · rintro ⟨a, s, hs, hl⟩
    exact ⟨⟨a, .jump⟩, hc.mem_refsTo.mpr ⟨s, hs, (s.mem_refs_jump l).mpr hl⟩, rfl⟩

theorem mem_provenanceOf (hc : c.WellFormed) {l : Label} {u : Use} :
    u ∈ c.provenanceOf l ↔
      u.kind = .provenance ∧ ∃ s, c.get? u.source = some s ∧ l ∈ s.phiPreds := by
  obtain ⟨p, kind⟩ := u
  rw [provenanceOf, List.mem_filter, hc.mem_refsTo]
  cases kind with
  | jump => simp [Use.isJump]
  | provenance => simp [Use.isJump, Stmt.mem_refs_provenance]

theorem provenanceOf_eq_nil_iff (hc : c.WellFormed) {l : Label} :
    c.provenanceOf l = [] ↔ ∀ p s, c.get? p = some s → l ∉ s.phiPreds := by
  rw [List.eq_nil_iff_forall_not_mem]
  constructor
  · intro h p s hs hl
    exact h ⟨p, .provenance⟩ (hc.mem_provenanceOf.mpr ⟨rfl, s, hs, hl⟩)
  · intro h u hu
    obtain ⟨-, s, hs, hl⟩ := hc.mem_provenanceOf.mp hu
    exact h u.source s hs hl

/-! ### New statements -/

theorem next_not_mem (hc : c.WellFormed) : (⟨c.next⟩ : Label) ∉ c.labels := by
  intro h
  obtain ⟨s, hs⟩ := hc.exists_get? h
  exact Nat.lt_irrefl _ (index_lt_of_get? hs)

theorem place (hc : c.WellFormed) {i : Nat} (hi : i ≤ c.labels.length) (s : Stmt) :
    (c.place i s).2.WellFormed where
  nodup := by
    rw [labels_place, (List.perm_insertIdx _ _ hi).nodup_iff]
    exact List.nodup_cons.mpr ⟨hc.next_not_mem, hc.nodup⟩
  mem_labels l := by
    rw [labels_place, List.mem_insertIdx hi, contains, get?_place, hc.mem_labels l, contains]
    by_cases hl : l = ⟨c.next⟩ <;> simp [hl]
  count_index l r := by
    have hold := hc.count_index l r
    have hidx : (c.place i s).2.index = c.index.insert ⟨c.next⟩ s := rfl
    rw [hidx, RefIndex.count_insert, hold, refsOf, refsOf, get?_place]
    by_cases hl : l = ⟨c.next⟩
    · simp [hc.get?_of_not_mem hc.next_not_mem, hl]
    · simp [hl]
  tight := hc.tight.insert _ _

/-! ### Changed statements -/

theorem update (hc : c.WellFormed) (l : Label) (f : Stmt → Stmt) : (c.update l f).WellFormed := by
  cases hs : c.get? l with
  | none =>
    have hsame : c.update l f = c := by simp [Chain.update, hs]
    rw [hsame]
    exact hc
  | some s =>
    have hidx : (c.update l f).index = (c.index.remove l s).insert l (f s) := by
      simp [Chain.update, hs]
    constructor
    · rw [labels_update]
      exact hc.nodup
    · intro k
      rw [labels_update, hc.mem_labels, contains_update]
    · intro k r
      have hold := hc.count_index k r
      rw [hidx, RefIndex.count_insert, RefIndex.count_remove, refsOf, get?_update]
      rw [refsOf] at hold
      by_cases hk : k = l
      · subst hk
        simp only [hs, Option.map_some, Option.getD_some, if_true] at hold ⊢
        omega
      · simp [hk, hold]
    · rw [hidx]
      exact (hc.tight.remove _ _).insert _ _

/-! ### A removed statement -/

/-- A statement that nothing refers to can be taken out. -/
theorem detach (hc : c.WellFormed) {l : Label} {s : Stmt} {i : Nat} (hs : c.get? l = some s)
    (hi : c.position? l = some i)
    (hfree : ∀ k t, c.get? k = some t → ∀ r ∈ t.refs, r.target ≠ l) :
    (c.detach i l s).WellFormed := by
  have hlabels : (c.detach i l s).labels = c.labels.erase l := eraseIdx_position? hi
  have hidx : (c.detach i l s).index = (c.index.remove l s).clear l := rfl
  constructor
  · rw [hlabels]
    exact hc.nodup.erase l
  · intro k
    rw [hlabels, hc.nodup.mem_erase_iff, hc.mem_labels, contains, contains, get?_detach hs]
    by_cases hkl : k = l <;> simp [hkl]
  · intro k r
    rw [hidx, RefIndex.count_clear, RefIndex.count_remove, hc.count_index, refsOf, refsOf,
      get?_detach hs]
    by_cases hkl : k = l
    · simp [hkl, hs]
    · by_cases hr : r.target = l
      · cases hk : c.get? k with
        | none => simp [hkl]
        | some t =>
          have hzero : t.refs.count r = 0 := List.count_eq_zero.mpr fun hm => hfree k t hk r hm hr
          simp [hkl, hzero]
      · simp [hr, hkl]
  · rw [hidx]
    exact (hc.tight.remove _ _).clear _

end WellFormed

end Chain

end LinearSSA
