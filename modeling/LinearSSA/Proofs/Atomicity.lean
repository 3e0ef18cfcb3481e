import LinearSSA.Proofs.Reachable

/-! Refused edits. A redirection changes one statement after another, and a removal redirects jumps
and shortens the program order before it looks its statement up for the last time, so that each of
them could be refused half-way. On a well-formed chain neither is: whatever refuses it does so
before the first change. A refused edit hence leaves the chain as it was, with the labels given so
far, the program order, the statements, and the recorded references in their order. -/

namespace LinearSSA

namespace Outcome

variable {α : Type} {c : Chain}

/-- The edit of `c` is done, or it leaves `c` as it was. -/
def Atomic (c : Chain) (o : Outcome α) : Prop := ∀ e, o.result = .error e → o.chain = c

theorem atomic_iff {o : Outcome α} :
    o.Atomic c ↔ (∃ e, o = refused e c) ∨ ∃ a c', o = done a c' := by
  obtain ⟨r, c'⟩ := o
  constructor
  · intro h
    cases r with
    | error e =>
      obtain rfl : c' = c := h e rfl
      exact .inl ⟨e, rfl⟩
    | ok a => exact .inr ⟨a, c', rfl⟩
  · rintro (⟨e, he⟩ | ⟨a, c'', hdone⟩) e' he'
    · rw [he]
      rfl
    · rw [hdone] at he'
      cases he'

end Outcome

namespace Chain

variable {c : Chain}

theorem modify_atomic {α : Type} (l : Label) (f : Stmt → α × Stmt) : (c.modify l f).Atomic c := by
  rw [Outcome.atomic_iff]
  rcases c.modify_cases l f with he | ⟨a, hdone⟩
  · exact .inl ⟨_, he⟩
  · exact .inr ⟨a, _, hdone⟩

/-- A refused edit leaves a chain that edits made as it was. -/
theorem Reachable.edits_atomic (h : c.Reachable) :
    (∀ a s, (c.insertAfter a s).Atomic c) ∧ (∀ a s, (c.insertBefore a s).Atomic c) ∧
    (∀ (α : Type) l (f : Stmt → α × Stmt), (c.modify l f).Atomic c) ∧
    (∀ l s, (c.replace l s).Atomic c) ∧
    (∀ old new, (c.retarget old new).Atomic c) ∧ ∀ l, (c.remove l).Atomic c := by
  have hc := h.wellFormed
  refine ⟨fun a s => ?_, fun a s => ?_, fun α l f => modify_atomic l f,
    fun l s => modify_atomic l fun old => (old, s), fun old new => ?_, fun l => ?_⟩
  all_goals rw [Outcome.atomic_iff]
  · rcases c.insertAfter_cases a s with he | ⟨i, -, hdone⟩
    · exact .inl ⟨_, he⟩
    · exact .inr ⟨_, _, hdone⟩
  · rcases c.insertBefore_cases a s with he | ⟨i, -, hdone⟩
    · exact .inl ⟨_, he⟩
    · exact .inr ⟨_, _, hdone⟩
  · rcases hc.retarget_cases old new with he | ⟨n, c', -, hdone, -⟩
    · exact .inl he
    · exact .inr ⟨n, c', hdone⟩
  · rcases hc.remove_cases l with he | ⟨d, s, c', -, -, -, hdone, -⟩
    · exact .inl he
    · exact .inr ⟨s, c', hdone⟩

/-- A goto to a label without a statement, which another goto leads to. -/
theorem edits_atomic_of_dangling :
    let c := run [.push (.goto ⟨1⟩), .push (.goto ⟨9⟩)] empty
    (c.remove ⟨1⟩).result = .error (.unknownStmt ⟨9⟩) ∧ (c.remove ⟨1⟩).chain = c := by
  intro c
  have he : (c.remove ⟨1⟩).result = .error (.unknownStmt ⟨9⟩) := by rfl
  have hc : c.Reachable := ⟨_, rfl⟩
  obtain ⟨-, -, -, -, -, hremove⟩ := hc.edits_atomic
  exact ⟨he, hremove ⟨1⟩ _ he⟩

end Chain

end LinearSSA
