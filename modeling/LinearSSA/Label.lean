/-! Labels, which name the statements of a chain, and the references from one statement to
another. -/

namespace LinearSSA

/-- The name of a statement within one chain. -/
@[ext] structure Label where
  index : Nat
  deriving DecidableEq, Repr

/-- Labels are ordered by their numbers. -/
instance : Ord Label := ⟨compareOn Label.index⟩

instance : Std.TransOrd Label := inferInstanceAs (Std.TransCmp (compareOn Label.index))

instance : Std.LawfulEqOrd Label where
  eq_of_compare h := Label.ext (Nat.compare_eq_eq.mp h)

/-- Labels are written `s0`, `s1`, and so on. -/
def Label.text (l : Label) : String :=
  "s" ++ l.index.repr

/-- What a reference to a statement means: control may go there, or a phi argument is the
value carried by control that comes from there. -/
inductive RefKind where
  | jump
  | provenance
  deriving DecidableEq, Repr

/-- A reference to a statement, without the statement that holds it. -/
structure Ref where
  target : Label
  kind : RefKind
  deriving DecidableEq, Repr

def Ref.isJump (r : Ref) : Bool :=
  r.kind = .jump

@[simp] theorem Ref.isJump_mk (t : Label) (k : RefKind) :
    (Ref.mk t k).isJump = decide (k = .jump) := rfl

end LinearSSA
