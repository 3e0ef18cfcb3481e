import LinearSSA.Text.Quoted

/-! Operands: what a statement may read. An operand is a local variable or a literal, never
a computation. -/

namespace LinearSSA

/-- A local variable of a body, known by its number. -/
structure Local where
  index : UInt64
  deriving DecidableEq, Repr

/-- Locals are written `l0`, `l1`, and so on. -/
def Local.text (x : Local) : String :=
  "l" ++ x.index.toNat.repr

/-- A constant of the source program. -/
inductive Literal where
  | null
  | int (value : Int32)
  | long (value : Int64)
  | str (value : String)
  deriving DecidableEq, Repr

/-- A long constant is told from an int by the letter after its digits. -/
def Literal.text : Literal → String
  | .null => "null"
  | .int v => v.toInt.repr
  | .long v => v.toInt.repr ++ "L"
  | .str s => Text.quoted s

inductive Operand where
  | var (x : Local)
  | const (c : Literal)
  deriving DecidableEq, Repr

namespace Operand

def text : Operand → String
  | .var x => x.text
  | .const c => c.text

def var? : Operand → Option Local
  | .var x => some x
  | .const _ => none

def isConst : Operand → Bool
  | .var _ => false
  | .const _ => true

end Operand

end LinearSSA
