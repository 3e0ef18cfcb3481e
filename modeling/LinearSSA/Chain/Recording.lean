import LinearSSA.Chain.History
import Mathlib.Data.List.Dedup

/-! The order in which the references of statements are recorded. A new statement is recorded
when it gets its label, and a changed one is recorded anew, also where the change is a step of a
redirection, a rerouting or a removal. -/

namespace LinearSSA

namespace Chain

/-! ### The statements that an edit records -/

/-- The statements that a redirection changes, in the order in which it does. -/
def retargeted (c : Chain) (old new : Label) : List Label :=
  if c.contains old && c.contains new then c.jumpSources old else []

/-- The statements whose jumps are redirected to a landing. -/
def evacuated (c : Chain) (l : Label) : Option Label → List Label
  | none => []
  | some d => c.retargeted l d

/-- The statements that a removal changes. -/
def relinked (c : Chain) (l : Label) : List Label :=
  match c.landing l with
  | .ok d => if (c.provenanceOf l).isEmpty then c.evacuated l d else []
  | .error _ => []

/-- The phis that a rerouting changes. -/
def rerouted (c : Chain) (l : Label) : List Label :=
  if c.contains l then
    match (c.phiUsers l).bind (·.mapM (c.bindingOf l)) with
    | .ok bs => bs.map (·.phi)
    | .error _ => []
  else []

end Chain

/-- The statements that an edit records, in the order in which it does; none if it is refused. -/
def Edit.recorded : Edit → Chain → List Label
  | .push s, c => ((push s).given? c).toList
  | .insertAfter a s, c => ((insertAfter a s).given? c).toList
  | .insertBefore a s, c => ((insertBefore a s).given? c).toList
  | .modify l _, c => if c.contains l then [l] else []
  | .replace l _, c => if c.contains l then [l] else []
  | .retarget old new, c => c.retargeted old new
  | .remove l, c => c.relinked l
  | .reroute l, c => c.rerouted l
  | .excise l, c =>
    match c.landing l with
    | .ok _ => c.rerouted l ++ (c.reroute l).chain.relinked l
    | .error _ => []

namespace Chain

/-- The statements that a sequence of edits records, oldest first. -/
def recordings : List Edit → Chain → List Label
  | [], _ => []
  | e :: es, c => e.recorded c ++ recordings es (e.apply c)

/-- Steps that record the statements under the labels, one after another, make `c'` out of `c`:
a statement is added or changed, or one that nothing refers to is taken out. -/
inductive Records (c : Chain) : List Label → Chain → Prop
  | start : Records c [] c
  | place {ls : List Label} {c' : Chain} (h : Records c ls c') {i : Nat}
      (hi : i ≤ c'.labels.length) (s : Stmt) : Records c (ls ++ [⟨c'.next⟩]) (c'.place i s).2
  | update {ls : List Label} {c' : Chain} (h : Records c ls c') {l : Label}
      (hl : c'.contains l = true) (f : Stmt → Stmt) : Records c (ls ++ [l]) (c'.update l f)
  | detach {ls : List Label} {c' : Chain} (h : Records c ls c') {l : Label} {s : Stmt} {i : Nat}
      (hs : c'.get? l = some s) (hi : c'.position? l = some i)
      (hfree : ∀ k t, c'.get? k = some t → ∀ r ∈ t.refs, r.target ≠ l) :
      Records c ls (c'.detach i l s)

/-- How many recordings came after the last one of `l`. -/
def since (ls : List Label) (l : Label) : Nat := ls.reverse.idxOf l

/-- The statements of the chain by their last recording, the one that was longest ago first. -/
def byAge (c : Chain) (ls : List Label) : List Label := ls.dedup.filter c.contains

end Chain

end LinearSSA
