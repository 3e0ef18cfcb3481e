import LinearSSA.Chain.Removal

/-! Phi arguments of a statement that is about to leave the control flow graph. Where a phi
has an argument from the statement, it gets one from each statement that control enters it
from, all with the same value. -/

namespace LinearSSA.Chain

/-- The statements that control enters `l` from, each of them once: the line that falls into
it, then those that jump to it, in program order. -/
def controlPreds (c : Chain) (l : Label) : List Label :=
  ((c.fallsInto? l).toList ++ c.jumpersTo l).eraseDups

/-- Whether the statement under `p` is a phi. -/
def isPhiAt (c : Chain) (p : Label) : Bool := (c.get? p).any (·.isPhi)

/-- The phis that the index records with an argument from `l`, each of them once. A source
that is not in the chain shows that the index has drifted from the statements. -/
def phiUsers (c : Chain) (l : Label) : Except Fault (List Label) :=
  let sources := (c.provenanceOf l).map (·.source)
  match sources.find? (!c.contains ·) with
  | some p => .error (.missingSource p l)
  | none => .ok (sources.filter c.isPhiAt).eraseDups

/-- A phi, and the position and the value of its first argument from some label. -/
structure Binding where
  phi : Label
  position : Nat
  value : Operand
  deriving DecidableEq, Repr

/-- The first argument from `l` of the phi under `p`; not to find one shows a drift, too. -/
def bindingOf (c : Chain) (l p : Label) : Except Fault Binding :=
  match (c.get? p).bind (·.phi?) with
  | none => .error (.notPhi p)
  | some φ =>
    match φ.argIndex? l with
    | none => .error (.unboundPhi p l)
    | some i =>
      match φ.value? i with
      | none => .error (.lostArgument p i)
      | some v => .ok ⟨p, i, v⟩

/-- Let each of the arguments come from each of `preds` instead, one phi after another. -/
def spreadEach (preds : List Label) : List Binding → Chain → Outcome Unit
  | [], c => .done () c
  | b :: bs, c =>
    (c.modify b.phi fun s => ((), s.mapPhi (·.spread b.position b.value preds))).bind fun _ c =>
      spreadEach preds bs c

/-- Let the phi arguments from `l` come from its control predecessors, and count the phis. All
the arguments are looked up before the first of them is changed. -/
def reroute (c : Chain) (l : Label) : Outcome Nat :=
  if !c.contains l then .refused (.unknownStmt l) c
  else if (c.refsTo l).all (·.isJump) then .done 0 c
  else match (c.phiUsers l).bind (·.mapM (c.bindingOf l)) with
    | .error e => .refused e c
    | .ok bs => (spreadEach (c.controlPreds l) bs c).map fun _ => bs.length

/-- Reroute the phi arguments from `l` and remove the statement, unless its removal would be
refused for the sake of control flow. -/
def excise (c : Chain) (l : Label) : Outcome Stmt :=
  match c.landing l with
  | .error e => .refused e c
  | .ok _ => (c.reroute l).bind fun _ c => c.remove l

/-! ### The number of labels given so far -/

theorem next_spreadEach (preds : List Label) (bs : List Binding) (c : Chain) :
    (spreadEach preds bs c).chain.next = c.next := by
  induction bs generalizing c with
  | nil => rfl
  | cons b bs ih =>
    refine Outcome.chain_bind (P := (·.next = c.next)) ?_ fun _ c' hc' => ?_
    · rw [chain_modify, next_update]
    · rw [ih, hc']

@[simp] theorem next_reroute (c : Chain) (l : Label) : (c.reroute l).chain.next = c.next := by
  unfold reroute
  split
  · rfl
  · split
    · rfl
    · split
      · rfl
      · rw [Outcome.chain_map, next_spreadEach]

@[simp] theorem next_excise (c : Chain) (l : Label) : (c.excise l).chain.next = c.next := by
  unfold excise
  split
  · rfl
  · refine Outcome.chain_bind (P := (·.next = c.next)) (next_reroute c l) fun _ c' hc' => ?_
    rw [next_remove, hc']

end LinearSSA.Chain
