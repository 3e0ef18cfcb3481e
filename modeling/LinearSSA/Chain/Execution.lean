import LinearSSA.Chain.Basic

/-! Execution of a chain, one statement at a time. What literals and operators mean, and which
way a jump goes, is left to an interpretation. A phi reads the argument from the statement
that was executed before it, and is stuck without one. -/

namespace LinearSSA

structure Interpretation (V : Type) where
  literal : Literal → V
  binary : Operator → V → V → V
  /-- Whether a branch on the value jumps. -/
  taken : V → Bool
  /-- Which row of a switch table the value selects; past the end it is the default. -/
  row : V → Nat

/-- The statement to be executed, the one executed before it, and the values of the locals. -/
structure Config (V : Type) where
  here : Label
  before : Option Label
  env : Local → V

namespace Interpretation

variable {V : Type} (I : Interpretation V)

def eval (env : Local → V) : Operand → V
  | .var x => env x
  | .const a => I.literal a

/-- The value of a right-hand side when control came from `before`. -/
def evalRhs (env : Local → V) (before : Option Label) : Rhs → Option V
  | .copy v => some (I.eval env v)
  | .binary op a b => some (I.binary op (I.eval env a) (I.eval env b))
  | .phi φ => (before.bind φ.valueFrom?).map (I.eval env)

def assigned (env : Local → V) (before : Option Label) : Stmt → Option (Local → V)
  | .assign x r => (I.evalRhs env before r).map fun v y => if y = x then v else env y
  | _ => some env

/-- Where control goes from a statement that has `after` on the next line. -/
def target (env : Local → V) (after : Option Label) : Stmt → Option Label
  | .nop => after
  | .assign _ _ => after
  | .goto t => some t
  | .branch v t => if I.taken (I.eval env v) then some t else after
  | .switch v ts d => some (ts.getD (I.row (I.eval env v)) d)
  | .ret _ => none
  | .throw _ => none

/-- Execute a statement. There is no next configuration after a return or a throw, past the
last line, at a label that is not in the chain, and at a stuck phi. -/
def step (c : Chain) (k : Config V) : Option (Config V) := do
  let s ← c.get? k.here
  let env ← I.assigned k.env k.before s
  let t ← I.target k.env (c.after? k.here) s
  return ⟨t, some k.here, env⟩

/-- The configurations follow one another. -/
def Run (c : Chain) : List (Config V) → Prop
  | k :: k' :: ks => I.step c k = some k' ∧ Run c (k' :: ks)
  | _ => True

/-- A value can be had for what the statement assigns. -/
def Unstuck (c : Chain) (k : Config V) : Prop :=
  ∃ s, c.get? k.here = some s ∧ (I.assigned k.env k.before s).isSome = true

end Interpretation

end LinearSSA
