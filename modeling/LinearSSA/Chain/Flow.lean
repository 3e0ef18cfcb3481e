import LinearSSA.Chain.Basic

/-! Control flow of a chain, read off its statements alone. There is an edge to each jump
target of a statement, whether it stands in the chain or not, and one to the next line if
the statement falls through. -/

namespace LinearSSA.Chain

/-- Control can go from `a` to `b` in one step. -/
def Edge (c : Chain) (a b : Label) : Prop :=
  ∃ s, c.get? a = some s ∧ (b ∈ s.jumpTargets ∨ s.fallsThrough = true ∧ c.after? a = some b)

/-- The labels name statements that can be visited one after the other. -/
def Walk (c : Chain) : List Label → Prop
  | [] => True
  | [a] => c.contains a = true
  | a :: b :: w => c.Edge a b ∧ c.Walk (b :: w)

/-- Every reference of a statement names a statement of the chain. -/
def Closed (c : Chain) : Prop :=
  ∀ l s, c.get? l = some s → ∀ r ∈ s.refs, c.contains r.target = true

theorem Edge.contains {c : Chain} {a b : Label} (h : c.Edge a b) : c.contains a = true := by
  obtain ⟨s, hs, -⟩ := h
  exact contains_iff.mpr ⟨s, hs⟩

theorem Walk.contains {c : Chain} {a : Label} {w : List Label} (h : c.Walk (a :: w)) :
    c.contains a = true := by
  cases w with
  | nil => exact h
  | cons b w => exact h.1.contains

end LinearSSA.Chain
