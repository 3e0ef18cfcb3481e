import LinearSSA.Body

/-! Conversions between a body and its single-assignment form. The form is made by a builder
and undone by an eliminator, which can be any functions of the right type; what is settled
here is which settings a builder sees, and which fault is reported first. -/

namespace LinearSSA

abbrev Builder := Body → Settings → Except Fault SSABody

abbrev Eliminator := SSABody → Except Fault Body

namespace Body

/-- Convert a body with the options registered for a phase. -/
def liftIn (build : Builder) (r : Registry) (phase : String) (b : Body) : Except Fault SSABody :=
  (Settings.ofOptions phase (r phase)).bind (build b)

/-- Convert a body in the default phase. -/
def lift (build : Builder) (r : Registry) (b : Body) : Except Fault SSABody :=
  b.liftIn build r Settings.defaultPhase

/-- Convert a body with an option string layered on top of the options of its phase. -/
def liftWith (build : Builder) (r : Registry) (phase options : String) (b : Body) :
    Except Fault SSABody := do
  let overrides ← Options.parse options
  let settings ← Settings.ofOptions phase ((r phase).merged overrides)
  build b settings

/-- Convert many bodies with one set of settings; a body that is refused does not keep the
others from being converted. -/
def liftAll (build : Builder) (r : Registry) (phase : String) (bs : List Body) :
    Except Fault (List (Except Fault SSABody)) :=
  (Settings.ofOptions phase (r phase)).map fun settings => bs.map (build · settings)

end Body

namespace Builder

/-- Take a body as it is, except one whose control flow is known to be irreducible. -/
def verbatim (irreducible : Signature → Bool) : Builder := fun b settings =>
  if irreducible b.signature then .error (.construction s!"irreducible: {b.signature.text}")
  else .ok (.ofParts b.signature b.locals b.chain settings)

end Builder

namespace Eliminator

/-- Let each phi be a copy of its first argument; a phi without arguments stays. -/
def firstArgument : Eliminator := fun b =>
  .ok (.ofParts b.signature b.locals (b.chain.phis.foldl copyFirst b.chain))
where
  copyFirst (c : Chain) (p : Label × Phi) : Chain :=
    match p.2.value? 0 with
    | some v => c.update p.1 (·.copyPhi v)
    | none => c

/-- Let each phi be a copy of what flows in from the line before it. -/
def fallThroughCopy : Eliminator := fun b =>
  if b.settings.naivePhis then .error (.elimination "naive elimination unsupported")
  else (b.chain.phis.foldlM copyPrevious b.chain).map (.ofParts b.signature b.locals)
where
  copyPrevious (c : Chain) (p : Label × Phi) : Except Fault Chain :=
    match (c.before? p.1).bind p.2.valueFrom? with
    | some v => .ok (c.update p.1 (·.copyPhi v))
    | none => .error (.elimination s!"{p.1.text} has no fall-through argument")

end Eliminator

end LinearSSA
