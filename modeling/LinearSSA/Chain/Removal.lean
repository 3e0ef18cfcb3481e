import LinearSSA.Chain.Edit

/-! Removing a statement from a chain. Control that used to enter the statement has to end up
where it went on to from there, so the statement needs a single way out, and a line that falls
into it falls into the next one afterwards. -/

namespace LinearSSA.Chain

/-- Where control can go from `s`, which stands under `l`: its jump targets, and the next
line if it falls through. -/
def exits (c : Chain) (l : Label) (s : Stmt) : List Label :=
  s.jumpTargets ++ if s.fallsThrough then (c.after? l).toList else []

/-- Where control entering `l` ends up once the statement is removed; `none` if no control
enters it. -/
def landing (c : Chain) (l : Label) : Except Fault (Option Label) :=
  match c.position? l, c.get? l with
  | some _, some s =>
    let fallenInto := (c.fallsInto? l).isSome
    if !c.isBranchedTo l && !fallenInto then .ok none
    else if s.fallsThrough && (c.after? l).isNone then .error (.noSuccessor l)
    else match c.exits l s with
      | [] => .error (.flowNotPreserved l)
      | d :: ds =>
        if ds.all (· = d) && d ≠ l && (!fallenInto || c.after? l = some d) then .ok (some d)
        else .error (.flowNotPreserved l)
  | _, _ => .error (.unknownStmt l)

/-- Let the references to `l`, which are all jumps by now, go to its landing. -/
def evacuate (c : Chain) (l : Label) : Option Label → Outcome Nat
  | none => .done 0 c
  | some d => if (c.refsTo l).isEmpty then .done 0 c else c.retarget l d

/-- Take out the statement `s` of `l`, which stands at position `i`, and every record of it. -/
def detach (c : Chain) (i : Nat) (l : Label) (s : Stmt) : Chain where
  slots := c.slots.set l.index none
  labels := c.labels.eraseIdx i
  index := (c.index.remove l s).clear l

/-- Take `l`, which stands at position `i`, out of the program order and then out of the rest. -/
def cut (c : Chain) (i : Nat) (l : Label) : Outcome Stmt :=
  match c.get? l with
  | none => .refused (.unknownStmt l) { c with labels := c.labels.eraseIdx i }
  | some s => .done s (c.detach i l s)

/-- Remove a statement and let the jumps to it go to its landing. No phi may name it. -/
def remove (c : Chain) (l : Label) : Outcome Stmt :=
  match c.position? l with
  | none => .refused (.unknownStmt l) c
  | some i =>
    if !(c.provenanceOf l).isEmpty then
      .refused (.stillReferenced l (c.provenanceOf l).length) c
    else match c.landing l with
      | .error e => .refused e c
      | .ok d => (c.evacuate l d).bind fun _ c => c.cut i l

theorem get?_detach {c : Chain} {l : Label} {s : Stmt} (hs : c.get? l = some s) (i : Nat)
    (k : Label) : (c.detach i l s).get? k = if k = l then none else c.get? k :=
  join_getElem?_set hs none k

theorem cut_of_get? {c : Chain} {l : Label} {s : Stmt} (hs : c.get? l = some s) (i : Nat) :
    c.cut i l = .done s (c.detach i l s) := by
  rw [cut, hs]

/-! ### The number of labels given so far -/

@[simp] theorem next_evacuate (c : Chain) (l : Label) (d : Option Label) :
    (c.evacuate l d).chain.next = c.next := by
  cases d with
  | none => rfl
  | some d =>
    rw [evacuate]
    split
    · rfl
    · exact next_retarget c l d

@[simp] theorem next_cut (c : Chain) (i : Nat) (l : Label) : (c.cut i l).chain.next = c.next := by
  unfold cut
  split <;> simp [detach, next]

@[simp] theorem next_remove (c : Chain) (l : Label) : (c.remove l).chain.next = c.next := by
  unfold remove
  split
  · rfl
  · split
    · rfl
    · split
      · rfl
      · refine Outcome.chain_bind (P := (·.next = c.next)) (next_evacuate c l _) fun n c' hc' => ?_
        rw [next_cut, hc']

end LinearSSA.Chain
