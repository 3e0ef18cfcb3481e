/-! Finite families whose members are known by name, such as the operators of the statement
language or the options that have a meaning of their own. -/

namespace LinearSSA

/-- A family listed in full, each member with the name that stands for it. -/
class Named (α : Type) where
  members : List α
  name : α → String

/-- No member of the family has the given name. -/
structure UnknownName where
  name : String
  deriving DecidableEq, Repr

def UnknownName.message (_ : UnknownName) : String :=
  "Matching variant not found"

/-- Look a member up by its exact name. -/
def Named.parse (α : Type) [Named α] (s : String) : Except UnknownName α :=
  match (Named.members : List α).find? (fun m => Named.name m = s) with
  | some m => .ok m
  | none => .error ⟨s⟩

end LinearSSA
