import LinearSSA.Operator
import LinearSSA.Phi

/-! Statements of three-address code. A statement is at once a line of the program and a node
of the control flow graph: its jump targets are edges, and a statement that falls through has
an edge to whatever line follows it. -/

namespace LinearSSA

/-- The right-hand side of an assignment. -/
inductive Rhs where
  | copy (v : Operand)
  | binary (op : Operator) (left right : Operand)
  | phi (φ : Phi)
  deriving DecidableEq, Repr

namespace Rhs

/-- The operands that are read, in written order. -/
def values : Rhs → List Operand
  | .copy v => [v]
  | .binary _ a b => [a, b]
  | .phi φ => φ.values

def phi? : Rhs → Option Phi
  | .phi φ => some φ
  | _ => none

def text : Rhs → String
  | .copy v => v.text
  | .binary op a b => s!"{a.text} {op.symbol} {b.text}"
  | .phi φ => φ.text

end Rhs

inductive Stmt where
  /-- Does nothing; a place to jump to. -/
  | nop
  | assign (dest : Local) (rhs : Rhs)
  | goto (target : Label)
  /-- Jumps if the condition holds and goes on with the next line otherwise. -/
  | branch (condition : Operand) (target : Label)
  | switch (key : Operand) (targets : List Label) (default : Label)
  | ret (value : Option Operand)
  | throw (value : Operand)
  deriving DecidableEq, Repr

namespace Stmt

/-- Where the statement may jump, in written order and with repetitions. -/
def jumpTargets : Stmt → List Label
  | .goto t => [t]
  | .branch _ t => [t]
  | .switch _ ts d => ts ++ [d]
  | _ => []

def phi? : Stmt → Option Phi
  | .assign _ r => r.phi?
  | _ => none

def isPhi (s : Stmt) : Bool := s.phi?.isSome

/-- The labels that the arguments of a phi come from. -/
def phiPreds (s : Stmt) : List Label :=
  match s.phi? with
  | some φ => φ.preds
  | none => []

/-- Every reference the statement holds, jumps first. -/
def refs (s : Stmt) : List Ref :=
  s.jumpTargets.map (⟨·, .jump⟩) ++ s.phiPreds.map (⟨·, .provenance⟩)

def jumps : Stmt → Bool
  | .goto _ | .branch _ _ | .switch _ _ _ => true
  | _ => false

/-- Control may go on with the next line. -/
def fallsThrough : Stmt → Bool
  | .nop | .assign _ _ | .branch _ _ => true
  | _ => false

/-- The local that is assigned to. -/
def dest? : Stmt → Option Local
  | .assign x _ => some x
  | _ => none

def phiDest? (s : Stmt) : Option Local :=
  if s.isPhi then s.dest? else none

/-- The operands that are read, in written order. -/
def values : Stmt → List Operand
  | .assign _ r => r.values
  | .branch v _ => [v]
  | .switch v _ _ => [v]
  | .ret v => v.toList
  | .throw v => [v]
  | .nop | .goto _ => []

/-! ### Edits -/

/-- Rename a label. -/
def redirect (old new l : Label) : Label :=
  if l = old then new else l

/-- Let every jump to `old` go to `new`; the arguments of a phi stay as they are. -/
def retarget (old new : Label) : Stmt → Stmt
  | .goto t => .goto (redirect old new t)
  | .branch v t => .branch v (redirect old new t)
  | .switch v ts d => .switch v (ts.map (redirect old new)) (redirect old new d)
  | s => s

/-- Retarget, and count the jumps that went to `old`. -/
def retargetCounted (old new : Label) (s : Stmt) : Nat × Stmt :=
  (s.jumpTargets.count old, s.retarget old new)

/-- Apply `f` to the phi of a phi statement. -/
def mapPhi (f : Phi → Phi) : Stmt → Stmt
  | .assign x (.phi φ) => .assign x (.phi (f φ))
  | s => s

/-- Let a phi statement be a copy of `v`. -/
def copyPhi (v : Operand) : Stmt → Stmt
  | .assign x (.phi _) => .assign x (.copy v)
  | s => s

def text : Stmt → String
  | .nop => "nop"
  | .assign x r => s!"{x.text} = {r.text}"
  | .goto t => s!"goto {t.text}"
  | .branch v t => s!"if {v.text} goto {t.text}"
  | .switch v ts d =>
    s!"switch {v.text} [" ++ ", ".intercalate (ts.map Label.text) ++ s!"] default {d.text}"
  | .ret none => "return"
  | .ret (some v) => s!"return {v.text}"
  | .throw v => s!"throw {v.text}"

/-! ### What an edit does to the references -/

@[simp] theorem jumpTargets_retarget (old new : Label) (s : Stmt) :
    (s.retarget old new).jumpTargets = s.jumpTargets.map (redirect old new) := by
  cases s <;> simp [retarget, jumpTargets]

@[simp] theorem phi?_retarget (old new : Label) (s : Stmt) :
    (s.retarget old new).phi? = s.phi? := by
  cases s <;> rfl

@[simp] theorem fallsThrough_retarget (old new : Label) (s : Stmt) :
    (s.retarget old new).fallsThrough = s.fallsThrough := by
  cases s <;> rfl

@[simp] theorem jumpTargets_mapPhi (f : Phi → Phi) (s : Stmt) :
    (s.mapPhi f).jumpTargets = s.jumpTargets := by
  cases s with
  | assign x r => cases r <;> rfl
  | _ => rfl

@[simp] theorem phi?_mapPhi (f : Phi → Phi) (s : Stmt) :
    (s.mapPhi f).phi? = s.phi?.map f := by
  cases s with
  | assign x r => cases r <;> rfl
  | _ => rfl

@[simp] theorem fallsThrough_mapPhi (f : Phi → Phi) (s : Stmt) :
    (s.mapPhi f).fallsThrough = s.fallsThrough := by
  cases s with
  | assign x r => cases r <;> rfl
  | _ => rfl

end Stmt

end LinearSSA
