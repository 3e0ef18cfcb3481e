import LinearSSA.Options

/-! Settings: what the options of a phase mean to the conversions between a body and its
single-assignment form. Options without a meaning here are kept as they are. -/

namespace LinearSSA

/-- The options that have a meaning of their own. -/
inductive OptionName where
  | naivePhiElimination
  deriving DecidableEq, Repr

def OptionName.key : OptionName → String
  | .naivePhiElimination => "naive-phi-elimination"

instance : Named OptionName where
  members := [.naivePhiElimination]
  name := OptionName.key

/-- The options registered for each phase. -/
abbrev Registry := String → Options

namespace Registry

def empty : Registry := fun _ => .empty

/-- Register options for a phase in the place of earlier ones. -/
def insert (r : Registry) (phase : String) (o : Options) : Registry :=
  fun p => if p = phase then o else r p

@[simp] theorem insert_self (r : Registry) (phase : String) (o : Options) :
    r.insert phase o phase = o := if_pos rfl

@[simp] theorem insert_of_ne (r : Registry) {p phase : String} (o : Options) (h : p ≠ phase) :
    r.insert phase o p = r p := if_neg h

end Registry

structure Settings where
  phase : String
  /-- Leave dead code and the allocation of locals alone before phis are eliminated. -/
  naivePhis : Bool
  raw : Options
  deriving DecidableEq

namespace Settings

/-- The phase that a body is converted in unless another one is asked for. -/
def defaultPhase : String := "ssa"

def initial : Settings := ⟨defaultPhase, false, .empty⟩

def ofOptions (phase : String) (raw : Options) : Except Fault Settings :=
  (raw.getBool OptionName.naivePhiElimination.key false).map fun naive => ⟨phase, naive, raw⟩

/-- Without options, a body is converted by the initial settings. -/
@[simp] theorem ofOptions_empty : ofOptions defaultPhase .empty = .ok initial := by
  simp [ofOptions, Options.getBool, initial, Except.map]

end Settings

end LinearSSA
