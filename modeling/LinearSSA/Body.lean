import LinearSSA.Chain.Reroute
import LinearSSA.Settings

/-! Method bodies: a chain of statements under a signature, with a count of its locals. The
first locals are the parameters. A body in single-assignment form carries the settings it was
built with. -/

namespace LinearSSA

structure Signature where
  name : String
  arity : UInt64
  deriving DecidableEq, Repr

def Signature.text (m : Signature) : String := s!"{m.name}/{m.arity.toNat.repr}"

structure Body where
  signature : Signature
  locals : UInt64
  chain : Chain
  deriving DecidableEq

namespace Body

/-- A body has at least its parameters as locals. -/
def ofParts (m : Signature) (locals : UInt64) (c : Chain) : Body := ⟨m, max locals m.arity, c⟩

/-- A body without statements. -/
def ofSignature (m : Signature) : Body := ofParts m m.arity .empty

def params (b : Body) : List Local :=
  (List.range b.signature.arity.toNat).map fun i => ⟨i.toUInt64⟩

/-- Add a local after the others. -/
def newLocal (b : Body) : Local × Body := (⟨b.locals⟩, { b with locals := b.locals + 1 })

def text (b : Body) : String :=
  s!"body {b.signature.text} ({b.locals.toNat.repr} locals)\n{b.chain.text}"

end Body

/-- A body in single-assignment form. -/
structure SSABody extends Body where
  settings : Settings
  deriving DecidableEq

namespace SSABody

def ofParts (m : Signature) (locals : UInt64) (c : Chain) (s : Settings) : SSABody :=
  ⟨.ofParts m locals c, s⟩

/-- A body without statements, in the default phase. -/
def ofSignature (m : Signature) : SSABody := ofParts m 0 .empty .initial

def text (b : SSABody) : String :=
  s!"ssa body {b.signature.text} ({b.locals.toNat.repr} locals, phase {b.settings.phase})\n"
    ++ b.chain.text

end SSABody

end LinearSSA
