import LinearSSA.Named

/-! The binary operators of three-address code. They are named by their symbols. -/

namespace LinearSSA

inductive Operator where
  | add | sub | mul | div | rem
  | and | or | xor
  | eq | ne | lt
  deriving DecidableEq, Repr

namespace Operator

def symbol : Operator → String
  | .add => "+"
  | .sub => "-"
  | .mul => "*"
  | .div => "/"
  | .rem => "%"
  | .and => "&"
  | .or => "|"
  | .xor => "^"
  | .eq => "=="
  | .ne => "!="
  | .lt => "<"

instance : Named Operator where
  members := [.add, .sub, .mul, .div, .rem, .and, .or, .xor, .eq, .ne, .lt]
  name := symbol

theorem parse_symbol (o : Operator) : Named.parse Operator o.symbol = .ok o := by
  cases o <;> rfl

end Operator

end LinearSSA
