import LinearSSA.Label

/-! The ways in which an operation of the library can be refused, and the sentence that
reports each of them. -/

namespace LinearSSA

inductive Fault where
  /-- A phi was given two lists of different length. -/
  | phiArity (values preds : Nat)
  /-- The index names a holder of a reference that the chain does not have. -/
  | missingSource (source target : Label)
  /-- A statement that was found among the phis is none. -/
  | notPhi (label : Label)
  /-- The index names a phi that has no argument from the label. -/
  | unboundPhi (phi pred : Label)
  /-- A phi has no argument at the position where one was found. -/
  | lostArgument (phi : Label) (position : Nat)
  | unknownStmt (label : Label)
  /-- Phi arguments still come from the statement. -/
  | stillReferenced (label : Label) (count : Nat)
  /-- Control leaves the last statement by its end. -/
  | noSuccessor (label : Label)
  /-- Without the statement, control entering it would end up elsewhere. -/
  | flowNotPreserved (label : Label)
  | invalidOption (token : String)
  /-- The construction of the single-assignment form was refused. -/
  | construction (reason : String)
  /-- The way back from the single-assignment form was refused. -/
  | elimination (reason : String)
  deriving DecidableEq, Repr

def Fault.message : Fault → String
  | .phiArity v p =>
    s!"Phi expression needs one predecessor per value - {v.repr} values, {p.repr} predecessors"
  | .missingSource s t =>
    s!"{s.text} is indexed as referencing {t.text} but is not in the chain"
  | .notPhi p => s!"{p.text} is indexed as a Phi node but is not one"
  | .unboundPhi p l =>
    s!"Phi node {p.text} is indexed as using {l.text} but has no argument bound to it"
  | .lostArgument p i => s!"Phi node {p.text} lost argument {i.repr}"
  | .unknownStmt l => s!"Statement {l.text} is not part of the chain"
  | .stillReferenced l n =>
    s!"Statement {l.text} is still referenced by {n.repr} Phi argument(s)"
  | .noSuccessor l =>
    s!"Statement {l.text} is branched to but has no successor to retarget to"
  | .flowNotPreserved l =>
    s!"Removing statement {l.text} would change where control entering it goes"
  | .invalidOption t => s!"Invalid phase option - {t}"
  | .construction r => s!"SSA construction failed - {r}"
  | .elimination r => s!"SSA elimination failed - {r}"

end LinearSSA
