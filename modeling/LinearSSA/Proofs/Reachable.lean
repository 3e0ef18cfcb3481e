import LinearSSA.Chain.History
import LinearSSA.Proofs.Removal
import LinearSSA.Proofs.Rerouting

/-! The invariant of the edits. Each of them keeps a chain well formed, whether it is done or
refused and however many of its steps were taken before it was refused. Hence the index of a
chain that edits made mirrors the references of the statements that the chain holds. -/

namespace LinearSSA

namespace Chain

variable {c : Chain}

namespace WellFormed

theorem inserted (hc : c.WellFormed) {e : Edit} {s : Stmt} (he : e.Inserts s c) :
    (e.apply c).WellFormed := by
  rcases he with ⟨-, happ⟩ | ⟨i, hi, -, -, happ⟩
  · rw [happ]
    exact hc
  · rw [happ]
    exact hc.place hi s

theorem modify {α : Type} (hc : c.WellFormed) (l : Label) (f : Stmt → α × Stmt) :
    (c.modify l f).chain.WellFormed := by
  rw [chain_modify]
  exact hc.update l _

theorem chain_retarget (hc : c.WellFormed) (old new : Label) :
    (c.retarget old new).chain.WellFormed := by
  rcases hc.retarget_cases old new with ⟨e, he⟩ | ⟨n, c', -, hdone, hmaps⟩
  · rw [he]
    exact hc
  · rw [hdone]
    exact hmaps.wellFormed

theorem chain_remove (hc : c.WellFormed) (l : Label) : (c.remove l).chain.WellFormed := by
  rcases hc.remove_cases l with ⟨e, he⟩ | ⟨d, s, c', -, -, -, hdone, hrem⟩
  · rw [he]
    exact hc
  · rw [hdone]
    exact hrem.wellFormed

theorem chain_excise (hc : c.WellFormed) (l : Label) : (c.excise l).chain.WellFormed := by
  rcases hc.excise_cases l with ⟨e, he⟩ | ⟨c₁, hmaps, heq⟩
  · rw [he]
    exact hc
  · rw [heq]
    exact hmaps.wellFormed.chain_remove l

/-- What one edit preserves. -/
theorem apply (hc : c.WellFormed) (e : Edit) : (e.apply c).WellFormed := by
  cases e with
  | push s => exact hc.inserted (Edit.inserts_push s c)
  | insertAfter a s => exact hc.inserted (Edit.inserts_insertAfter a s c)
  | insertBefore a s => exact hc.inserted (Edit.inserts_insertBefore a s c)
  | modify l f => exact hc.modify l _
  | replace l s => exact hc.modify l _
  | retarget old new => exact hc.chain_retarget old new
  | remove l => exact hc.chain_remove l
  | reroute l => exact hc.chain_reroute l
  | excise l => exact hc.chain_excise l

end WellFormed

/-- What all edits together preserve. -/
theorem Reachable.wellFormed (h : c.Reachable) : c.WellFormed :=
  Reachable.induction WellFormed.empty (fun _ e hc => hc.apply e) h

/-! ### The references of all statements -/

/-- Everything that is held: who holds which reference, in program order. -/
def heldRefs (c : Chain) : List (Label × Ref) :=
  c.lines.flatMap fun x => x.stmt.refs.map (x.label, ·)

theorem map_heldRefs (c : Chain) : c.heldRefs.map (·.2) = c.lines.flatMap (·.stmt.refs) := by
  simp [heldRefs, List.map_flatMap, Function.comp_def]

/-- Of the labels in a list without repetitions, only `l` holds the references of `l`. -/
theorem count_held (c : Chain) {ls : List Label} (hd : ls.Nodup) (l : Label) (r : Ref) :
    ((ls.filterMap fun k => (c.get? k).map (Line.mk k)).flatMap fun x =>
      x.stmt.refs.map (x.label, ·)).count (l, r) = if l ∈ ls then (c.refsOf l).count r else 0 := by
  induction ls with
  | nil => simp
  | cons k ls ih =>
    obtain ⟨hk, hls⟩ := List.nodup_cons.mp hd
    have hinj : Function.Injective fun r : Ref => (k, r) := fun _ _ h => (Prod.mk.inj h).2
    rw [List.filterMap_cons]
    by_cases hl : l = k
    · subst hl
      cases hs : c.get? l with
      | none => simp [ih hls, hk, refsOf, hs]
      | some s =>
        simp [ih hls, hk, refsOf_of_get? hs, List.count_map_of_injective _ _ hinj]
    · cases hs : c.get? k with
      | none => simp [ih hls, hl]
      | some s =>
        have hzero : (s.refs.map (k, ·)).count (l, r) = 0 := by
          refine List.count_eq_zero.mpr fun hm => ?_
          obtain ⟨_, -, he⟩ := List.mem_map.mp hm
          exact hl (Prod.mk.inj he).1.symm
        simp [ih hls, hl, hzero]

namespace WellFormed

theorem count_heldRefs (hc : c.WellFormed) (l : Label) (r : Ref) :
    c.heldRefs.count (l, r) = (c.refsOf l).count r := by
  rw [heldRefs, lines, count_held c hc.nodup]
  split
  · rfl
  · next h => simp [refsOf, hc.get?_of_not_mem h]

/-- What is recorded is what is held. -/
theorem entries_perm_heldRefs (hc : c.WellFormed) : c.index.entries.Perm c.heldRefs := by
  rw [List.perm_iff_count]
  rintro ⟨l, r⟩
  rw [RefIndex.count_entries, hc.count_index, hc.count_heldRefs]

theorem size_index (hc : c.WellFormed) :
    c.index.size = (c.lines.flatMap (·.stmt.refs)).length := by
  rw [← RefIndex.length_entries, hc.entries_perm_heldRefs.length_eq, ← map_heldRefs,
    List.length_map]

theorem isEmpty_index_iff (hc : c.WellFormed) :
    c.index.isEmpty = true ↔ c.lines.flatMap (·.stmt.refs) = [] := by
  rw [RefIndex.isEmpty_iff hc.tight, ← map_heldRefs, List.map_eq_nil_iff]
  constructor
  · intro h
    exact List.perm_nil.mp (h ▸ hc.entries_perm_heldRefs.symm)
  · intro h
    exact List.perm_nil.mp (h ▸ hc.entries_perm_heldRefs)

/-- The entries for `t` are the references to it that are held. -/
theorem refsTo_perm (hc : c.WellFormed) (t : Label) :
    (c.refsTo t).Perm ((c.heldRefs.filter (·.2.target = t)).map fun x => ⟨x.1, x.2.kind⟩) := by
  rw [List.perm_iff_count]
  rintro ⟨l, kind⟩
  have hindex : (c.refsTo t).count ⟨l, kind⟩ = c.heldRefs.count (l, ⟨t, kind⟩) := by
    rw [hc.count_heldRefs, ← hc.count_index]
    rfl
  rw [hindex, List.count, List.count, List.countP_map, List.countP_filter]
  refine List.countP_congr fun ⟨k, t', kind'⟩ _ => ?_
  simp [and_comm, and_left_comm]

theorem countP_refsTo (hc : c.WellFormed) (t : Label) (kind : RefKind) :
    (c.refsTo t).countP (·.kind = kind) = (c.lines.flatMap (·.stmt.refs)).count ⟨t, kind⟩ := by
  rw [(hc.refsTo_perm t).countP_eq, List.countP_map, List.countP_filter, ← map_heldRefs,
    List.count, List.countP_map]
  refine List.countP_congr fun ⟨k, t', kind'⟩ _ => ?_
  simp [and_comm]

end WellFormed

/-- The index of a chain that edits made has an entry for each time that a statement of the chain
refers to another one, and no other entries. -/
theorem Reachable.index_mirrors_refs (h : c.Reachable) :
    (∀ t l kind, (c.refsTo t).count ⟨l, kind⟩ =
      match c.get? l with
      | some s => s.refs.count ⟨t, kind⟩
      | none => 0) ∧
    c.index.size = (c.lines.flatMap (·.stmt.refs)).length ∧
    (c.index.isEmpty = true ↔ c.lines.flatMap (·.stmt.refs) = []) := by
  have hc := h.wellFormed
  refine ⟨fun t l kind => ?_, hc.size_index, hc.isEmpty_index_iff⟩
  have hcount := hc.count_index l ⟨t, kind⟩
  rw [RefIndex.count, refsOf] at hcount
  rw [refsTo, hcount]
  cases c.get? l <;> rfl

/-- A switch whose jumps to the line before were redirected to itself. -/
theorem index_mirrors_refs_of_switch :
    let c := run [.push .nop, .push (.switch (.const .null) [⟨0⟩, ⟨0⟩] ⟨7⟩), .excise ⟨0⟩] empty
    c.Reachable ∧ (c.refsTo ⟨1⟩).count ⟨⟨1⟩, .jump⟩ = 2 ∧ (c.refsTo ⟨7⟩).count ⟨⟨1⟩, .jump⟩ = 1 ∧
      c.index.size = 3 ∧ c.index.isEmpty ≠ true := by
  intro c
  have hc : c.Reachable := ⟨_, rfl⟩
  obtain ⟨hcount, hsize, hempty⟩ := hc.index_mirrors_refs
  exact ⟨hc, hcount ⟨1⟩ ⟨1⟩ .jump, hcount ⟨7⟩ ⟨1⟩ .jump, hsize, mt hempty.mp (by decide)⟩

end Chain

end LinearSSA
