import LinearSSA.Proofs.Reachable
import Mathlib.Data.List.InsertIdx

/-! Labels. The program order and the slots of the statements name the same statements, each of
them once. An edit gives at most one label, which is the number of labels given before, so the
labels of all edits are different, those of removed statements included. It leaves the statements
that stay in the order in which they were. -/

namespace LinearSSA.Chain

variable {c : Chain} {l : Label}

/-! ### Program order and slots -/

/-- The program order and the slots of the statements agree. -/
structure OrderAgrees (c : Chain) : Prop where
  nodup : c.labels.Nodup
  mem_labels : ∀ l, l ∈ c.labels ↔ ∃ s, c.get? l = some s
  index_lt : ∀ l ∈ c.labels, l.index < c.next
  contains : ∀ l, c.contains l = (c.position? l).isSome
  /-- The lines are the labels in program order, each with its statement. -/
  lines : c.lines.map (fun x => (x.label, some x.stmt)) = c.labels.map fun l => (l, c.get? l)
  length_lines : c.lines.length = c.size
  after? : ∀ a b, c.after? a = some b ↔ c.before? b = some a
  /-- Once a removal has passed its checks and redirected the jumps, the statement still stands at
  its position and in its slot. -/
  cut : ∀ l i d n c', c.position? l = some i → c.provenanceOf l = [] → c.landing l = .ok d →
    c.evacuate l d = .done n c' → ∃ s, c'.labels[i]? = some l ∧
      c'.slots[l.index]? = some (some s) ∧ c'.cut i l = .done s (c'.detach i l s)

namespace WellFormed

theorem lines_eq (hc : c.WellFormed) :
    c.lines.map (fun x => (x.label, some x.stmt)) = c.labels.map fun l => (l, c.get? l) := by
  rw [lines, List.map_filterMap, ← List.filterMap_eq_map]
  refine List.filterMap_congr fun l hl => ?_
  obtain ⟨s, hs⟩ := hc.exists_get? hl
  simp [hs]

/-- A removal finds its statement again after the jumps were redirected. -/
theorem exists_cut (hc : c.WellFormed) {d : Option Label} (hl : c.landing l = .ok d)
    (hp : c.provenanceOf l = []) {i n : Nat} (hi : c.position? l = some i) {c' : Chain}
    (hev : c.evacuate l d = .done n c') :
    ∃ s, c'.labels[i]? = some l ∧ c'.slots[l.index]? = some (some s) ∧
      c'.cut i l = .done s (c'.detach i l s) := by
  rcases hc.evacuate_cases hl hp with ⟨d', -, -, -, he⟩ | ⟨n', c'', hdone, hm⟩
  · rw [he] at hev
    cases hev
  · obtain rfl : c'' = c' := congrArg Outcome.chain (hdone.symm.trans hev)
    obtain ⟨s, hs⟩ := get?_of_landing hl
    have hs' : c''.get? l = some (s.retarget l (d.getD l)) := by
      rw [hm.get?, hs, Option.map_some]
    refine ⟨_, ?_, Option.join_eq_some_iff.mp hs', cut_of_get? hs' i⟩
    rw [hm.labels]
    exact (position?_eq_some_iff hc.nodup).mp hi

theorem orderAgrees (hc : c.WellFormed) : c.OrderAgrees where
  nodup := hc.nodup
  mem_labels l := (hc.mem_labels l).trans contains_iff
  index_lt l hl := by
    obtain ⟨s, hs⟩ := hc.exists_get? hl
    exact index_lt_of_get? hs
  contains l := by
    rw [Bool.eq_iff_iff, position?_isSome, hc.mem_labels]
  lines := hc.lines_eq
  length_lines := by
    have h := congrArg List.length hc.lines_eq
    rwa [List.length_map, List.length_map] at h
  after? a b := (before?_eq_some_iff_after? hc.nodup).symm
  cut _ _ _ _ _ hi hp hl hev := hc.exists_cut hl hp hi hev

end WellFormed

/-! ### The labels after an edit -/

/-- An edit keeps the labels of the chain, gives a new one its place among them, or takes one
out. -/
inductive Relabels (c : Chain) (e : Edit) : Prop
  | keeps (given : e.given? c = none) (next : (e.apply c).next = c.next)
      (labels : (e.apply c).labels = c.labels)
  | adds (i : Nat) (hi : i ≤ c.labels.length) (given : e.given? c = some ⟨c.next⟩)
      (next : (e.apply c).next = c.next + 1)
      (labels : (e.apply c).labels = c.labels.insertIdx i ⟨c.next⟩)
  | drops (l : Label) (given : e.given? c = none) (next : (e.apply c).next = c.next)
      (labels : (e.apply c).labels = c.labels.erase l)

theorem Relabels.inserted {e : Edit} {s : Stmt} (he : e.Inserts s c) : c.Relabels e := by
  rcases he with ⟨hgiven, happ⟩ | ⟨i, hi, hgiven, -, happ⟩
  · exact .keeps hgiven (by rw [happ]) (by rw [happ])
  · exact .adds i hi hgiven (by rw [happ, next_place]) (by rw [happ, labels_place])

namespace WellFormed

/-- What a removal does to the program order. -/
theorem labels_remove (hc : c.WellFormed) (l : Label) :
    (c.remove l).chain.labels = c.labels ∨ (c.remove l).chain.labels = c.labels.erase l := by
  rcases hc.remove_cases l with ⟨e, he⟩ | ⟨d, s, c', -, -, -, hdone, hrem⟩
  · exact .inl (by rw [he, Outcome.chain_refused])
  · exact .inr (by rw [hdone, Outcome.chain_done, hrem.labels])

theorem labels_excise (hc : c.WellFormed) (l : Label) :
    (c.excise l).chain.labels = c.labels ∨ (c.excise l).chain.labels = c.labels.erase l := by
  rcases hc.excise_cases l with ⟨e, he⟩ | ⟨c₁, hmaps, heq⟩
  · exact .inl (by rw [he, Outcome.chain_refused])
  · rw [heq, ← hmaps.labels]
    exact hmaps.wellFormed.labels_remove l

theorem labels_retarget (hc : c.WellFormed) (old new : Label) :
    (c.retarget old new).chain.labels = c.labels := by
  rcases hc.retarget_cases old new with ⟨e, he⟩ | ⟨n, c', -, hdone, hmaps⟩
  · rw [he, Outcome.chain_refused]
  · rw [hdone, Outcome.chain_done, hmaps.labels]

theorem labels_reroute (hc : c.WellFormed) (l : Label) :
    (c.reroute l).chain.labels = c.labels := by
  rcases hc.reroute_cases l with ⟨e, he⟩ | ⟨n, c', hdone, hmaps⟩
  · rw [he, Outcome.chain_refused]
  · rw [hdone, Outcome.chain_done, hmaps.labels]

theorem relabels (hc : c.WellFormed) (e : Edit) : c.Relabels e := by
  cases e with
  | push s => exact .inserted (Edit.inserts_push s c)
  | insertAfter a s => exact .inserted (Edit.inserts_insertAfter a s c)
  | insertBefore a s => exact .inserted (Edit.inserts_insertBefore a s c)
  | modify l f =>
    have happ : (Edit.modify l f).apply c = c.update l f := chain_modify c l _
    exact .keeps rfl (by rw [happ, next_update]) (by rw [happ, labels_update])
  | replace l s =>
    have happ : (Edit.replace l s).apply c = c.update l fun _ => s := chain_modify c l _
    exact .keeps rfl (by rw [happ, next_update]) (by rw [happ, labels_update])
  | retarget old new => exact .keeps rfl (next_retarget c old new) (hc.labels_retarget old new)
  | remove l =>
    rcases hc.labels_remove l with h | h
    · exact .keeps rfl (next_remove c l) h
    · exact .drops l rfl (next_remove c l) h
  | reroute l => exact .keeps rfl (next_reroute c l) (hc.labels_reroute l)
  | excise l =>
    rcases hc.labels_excise l with h | h
    · exact .keeps rfl (next_excise c l) h
    · exact .drops l rfl (next_excise c l) h

theorem next_le_apply (hc : c.WellFormed) (e : Edit) : c.next ≤ (e.apply c).next := by
  cases hc.relabels e with
  | keeps _ next _ => omega
  | adds _ _ _ next _ => omega
  | drops _ _ next _ => omega

/-- A label that was given before an edit is not given to another statement by it. -/
theorem mem_labels_of_apply (hc : c.WellFormed) {e : Edit} (hl : l ∈ (e.apply c).labels)
    (hlt : l.index < c.next) : l ∈ c.labels := by
  cases hc.relabels e with
  | keeps _ _ labels => rwa [labels] at hl
  | adds i hi _ _ labels =>
    rw [labels, List.mem_insertIdx hi] at hl
    rcases hl with rfl | hl
    · exact absurd hlt (Nat.lt_irrefl _)
    · exact hl
  | drops k _ _ labels =>
    rw [labels] at hl
    exact List.mem_of_mem_erase hl

theorem sameOrder_apply (hc : c.WellFormed) (e : Edit) :
    SameOrder c.labels (e.apply c).labels := by
  cases hc.relabels e with
  | keeps _ _ labels => exact .of_sublist (by rw [labels]) (hc.apply e).nodup
  | adds i hi _ _ labels =>
    refine .of_sublist ?_ (hc.apply e).nodup
    rw [labels]
    exact List.sublist_insertIdx ..
  | drops k _ _ labels =>
    refine .symm (.of_sublist ?_ hc.nodup)
    rw [labels]
    exact List.erase_sublist

/-! ### Sequences of edits -/

theorem mem_labels_of_run (hc : c.WellFormed) {es : List Edit} (hl : l ∈ (run es c).labels)
    (hlt : l.index < c.next) : l ∈ c.labels := by
  induction es generalizing c with
  | nil => exact hl
  | cons e es ih =>
    have hle := hc.next_le_apply e
    exact hc.mem_labels_of_apply (ih (hc.apply e) hl (by omega)) hlt

/-- Edits leave the statements that stay in the order in which they were. -/
theorem sameOrder_run (hc : c.WellFormed) (es : List Edit) :
    SameOrder c.labels (run es c).labels := by
  induction es generalizing c with
  | nil => exact .refl _
  | cons e es ih =>
    -- no label comes back, so what stays is there after the first edit
    refine (hc.sameOrder_apply e).trans (ih (hc.apply e)) fun l hl hl' => ?_
    obtain ⟨s, hs⟩ := hc.exists_get? hl
    have hlt := index_lt_of_get? hs
    have hle := hc.next_le_apply e
    exact (hc.apply e).mem_labels_of_run hl' (by omega)

/-- The labels are given by counting on. -/
theorem given_eq_range' (hc : c.WellFormed) (es : List Edit) :
    ∃ n, (run es c).next = c.next + n ∧ given es c = (List.range' c.next n).map Label.mk := by
  induction es generalizing c with
  | nil => exact ⟨0, rfl, rfl⟩
  | cons e es ih =>
    obtain ⟨n, hnext, hgiven⟩ := ih (hc.apply e)
    rw [run_cons, given, hgiven, hnext]
    cases hc.relabels e with
    | keeps given next _ => exact ⟨n, by rw [next], by rw [given, next]; rfl⟩
    | adds _ _ given next _ =>
      refine ⟨n + 1, by omega, ?_⟩
      rw [given, next, List.range'_succ]
      rfl
    | drops _ given next _ => exact ⟨n, by rw [next], by rw [given, next]; rfl⟩

end WellFormed

/-- After any edits, the program order names the statements that have a slot, in the order in which
they were before; and no label was given twice, so that their number is the next label. -/
theorem run_keeps_order (es : List Edit) :
    (run es empty).OrderAgrees ∧ (given es empty).Nodup ∧
    (run es empty).next = (given es empty).length ∧
    ∀ fs, SameOrder (run es empty).labels (run fs (run es empty)).labels := by
  have hc : (run es empty).WellFormed := Reachable.wellFormed ⟨es, rfl⟩
  obtain ⟨n, hnext, hgiven⟩ := WellFormed.empty.given_eq_range' es
  refine ⟨hc.orderAgrees, ?_, ?_, hc.sameOrder_run⟩
  · rw [hgiven]
    exact List.Nodup.map (fun _ _ h => congrArg Label.index h) List.nodup_range'
  · rw [hgiven, hnext]
    simp [empty, next]

/-- The label of a removed statement is not given again, though a new statement takes its place. -/
theorem run_keeps_order_of_removal :
    let es : List Edit := [.push .nop, .push .nop, .push (.ret none), .remove ⟨1⟩,
      .insertBefore ⟨2⟩ .nop]
    (run es empty).labels = [⟨0⟩, ⟨3⟩, ⟨2⟩] ∧ given es empty = [⟨0⟩, ⟨1⟩, ⟨2⟩, ⟨3⟩] ∧
      (given es empty).Nodup ∧ (run es empty).lines.length = 3 := by
  intro es
  obtain ⟨hagrees, hnodup, -, -⟩ := run_keeps_order es
  exact ⟨by rfl, by rfl, hnodup, hagrees.length_lines⟩

end LinearSSA.Chain
