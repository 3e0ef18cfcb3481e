import LinearSSA.Fault
import LinearSSA.Operand

/-! Phi expressions. A phi selects one of its arguments by the statement that control came
from: the first argument from that statement counts. The arguments keep their order. -/

namespace LinearSSA

/-- A value together with the statement it flows in from. -/
structure Phi.Arg where
  value : Operand
  pred : Label
  deriving DecidableEq, Repr

def Phi.Arg.text (a : Phi.Arg) : String :=
  s!"{a.value.text} from {a.pred.text}"

structure Phi where
  args : List Phi.Arg
  deriving DecidableEq, Repr

namespace Phi

def empty : Phi := ⟨[]⟩

/-- Pair values with labels by position; neither list is cut to the other's length. -/
def ofLists (values : List Operand) (preds : List Label) : Except Fault Phi :=
  if values.length = preds.length then .ok ⟨values.zipWith Arg.mk preds⟩
  else .error (.phiArity values.length preds.length)

/-- The phi of a variable that has not been renamed yet. -/
def trivial (x : Local) (preds : List Label) : Phi :=
  ⟨preds.map fun p => ⟨.var x, p⟩⟩

def size (φ : Phi) : Nat := φ.args.length

def isEmpty (φ : Phi) : Bool := φ.args.isEmpty

def values (φ : Phi) : List Operand := φ.args.map (·.value)

def preds (φ : Phi) : List Label := φ.args.map (·.pred)

def value? (φ : Phi) (i : Nat) : Option Operand := φ.args[i]?.map (·.value)

def pred? (φ : Phi) (i : Nat) : Option Label := φ.args[i]?.map (·.pred)

/-- The position of the first argument from `l`. -/
def argIndex? (φ : Phi) (l : Label) : Option Nat := φ.preds.idxOf? l

/-- The value that flows in from `l`. -/
def valueFrom? (φ : Phi) (l : Label) : Option Operand :=
  (φ.argIndex? l).bind φ.value?

/-! ### Edits -/

def setValue? (φ : Phi) (i : Nat) (v : Operand) : Option Phi :=
  φ.args[i]?.map fun a => ⟨φ.args.set i { a with value := v }⟩

def setPred? (φ : Phi) (i : Nat) (l : Label) : Option Phi :=
  φ.args[i]?.map fun a => ⟨φ.args.set i { a with pred := l }⟩

def addArg (φ : Phi) (v : Operand) (l : Label) : Phi :=
  ⟨φ.args ++ [⟨v, l⟩]⟩

/-- Take argument `i` out; the later ones move up. -/
def removeArg? (φ : Phi) (i : Nat) : Option (Arg × Phi) :=
  φ.args[i]?.map fun a => (a, ⟨φ.args.eraseIdx i⟩)

/-- Take argument `i` out and let `v` come from each of `preds`. -/
def spread (φ : Phi) (i : Nat) (v : Operand) (preds : List Label) : Phi :=
  let rest := match φ.removeArg? i with
    | some (_, rest) => rest
    | none => φ
  preds.foldl (·.addArg v ·) rest

def text (φ : Phi) : String :=
  "phi(" ++ ", ".intercalate (φ.args.map Arg.text) ++ ")"

/-! ### Lookup by label -/

theorem argIndex?_isSome {φ : Phi} {l : Label} :
    (φ.argIndex? l).isSome = true ↔ l ∈ φ.preds := by
  simp [argIndex?]

/-- The first argument from `l` counts. -/
theorem valueFrom?_eq (φ : Phi) (l : Label) :
    φ.valueFrom? l = (φ.args.find? (·.pred = l)).map (·.value) := by
  obtain ⟨args⟩ := φ
  induction args with
  | nil => rfl
  | cons a args ih =>
    by_cases h : a.pred = l
    · simp [valueFrom?, argIndex?, value?, preds, List.idxOf?_cons, h]
    · simp only [List.find?_cons, h, decide_false]
      rw [← ih]
      simp [valueFrom?, argIndex?, value?, preds, List.idxOf?_cons, h, Option.bind_map,
        Function.comp_def]
      rfl

theorem valueFrom?_isSome {φ : Phi} {l : Label} :
    (φ.valueFrom? l).isSome = true ↔ l ∈ φ.preds := by
  simp [valueFrom?_eq, preds]

end Phi

end LinearSSA
