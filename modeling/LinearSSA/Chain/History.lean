import LinearSSA.Chain.Reroute

/-! The public edits of a chain as values, and the chains that some sequence of them makes out
of the empty one. An edit that is refused counts, with the chain it leaves. -/

namespace LinearSSA

inductive Edit where
  | push (s : Stmt)
  | insertAfter (anchor : Label) (s : Stmt)
  | insertBefore (anchor : Label) (s : Stmt)
  | modify (l : Label) (f : Stmt → Stmt)
  | replace (l : Label) (s : Stmt)
  | retarget (old new : Label)
  | remove (l : Label)
  | reroute (l : Label)
  | excise (l : Label)

namespace Edit

/-- The chain after an edit. -/
def apply : Edit → Chain → Chain
  | .push s, c => (c.push s).2
  | .insertAfter a s, c => (c.insertAfter a s).chain
  | .insertBefore a s, c => (c.insertBefore a s).chain
  | .modify l f, c => (c.modify l fun s => ((), f s)).chain
  | .replace l s, c => (c.replace l s).chain
  | .retarget old new, c => (c.retarget old new).chain
  | .remove l, c => (c.remove l).chain
  | .reroute l, c => (c.reroute l).chain
  | .excise l, c => (c.excise l).chain

/-- The label that an edit gives to a new statement; none if it adds none or is refused. -/
def given? : Edit → Chain → Option Label
  | .push s, c => some (c.push s).1
  | .insertAfter a s, c => (c.insertAfter a s).result.toOption
  | .insertBefore a s, c => (c.insertBefore a s).result.toOption
  | _, _ => none

/-- The statement that an edit writes for its caller; none if it is refused. -/
def written? : Edit → Chain → Option Stmt
  | .push s, _ => some s
  | .insertAfter a s, c => (c.insertAfter a s).result.toOption.map fun _ => s
  | .insertBefore a s, c => (c.insertBefore a s).result.toOption.map fun _ => s
  | .modify l f, c => (c.get? l).map f
  | .replace l s, c => (c.get? l).map fun _ => s
  | _, _ => none

/-- The edit is refused and changes nothing, or it gives the next label to `s` and puts it into
the program order. -/
def Inserts (e : Edit) (s : Stmt) (c : Chain) : Prop :=
  e.given? c = none ∧ e.apply c = c ∨
    ∃ i ≤ c.labels.length, e.given? c = some ⟨c.next⟩ ∧ e.written? c = some s ∧
      e.apply c = (c.place i s).2

theorem inserts_push (s : Stmt) (c : Chain) : (push s).Inserts s c :=
  .inr ⟨c.size, Nat.le_refl _, rfl, rfl, rfl⟩

theorem inserts_insertAfter (a : Label) (s : Stmt) (c : Chain) :
    (insertAfter a s).Inserts s c := by
  rcases c.insertAfter_cases a s with h | ⟨i, hi, h⟩
  · exact .inl ⟨by rw [given?, h]; rfl, congrArg Outcome.chain h⟩
  · exact .inr ⟨i, hi, by rw [given?, h]; rfl, by rw [written?, h]; rfl, congrArg Outcome.chain h⟩

theorem inserts_insertBefore (a : Label) (s : Stmt) (c : Chain) :
    (insertBefore a s).Inserts s c := by
  rcases c.insertBefore_cases a s with h | ⟨i, hi, h⟩
  · exact .inl ⟨by rw [given?, h]; rfl, congrArg Outcome.chain h⟩
  · exact .inr ⟨i, hi, by rw [given?, h]; rfl, by rw [written?, h]; rfl, congrArg Outcome.chain h⟩

end Edit

namespace Chain

/-- The chain after a sequence of edits. -/
def run (es : List Edit) (c : Chain) : Chain := es.foldl (fun c e => e.apply c) c

@[simp] theorem run_nil (c : Chain) : run [] c = c := rfl

@[simp] theorem run_cons (e : Edit) (es : List Edit) (c : Chain) :
    run (e :: es) c = run es (e.apply c) := rfl

theorem run_append (es fs : List Edit) (c : Chain) : run (es ++ fs) c = run fs (run es c) :=
  List.foldl_append

/-- The labels that a sequence of edits gives, oldest first. -/
def given : List Edit → Chain → List Label
  | [], _ => []
  | e :: es, c => (e.given? c).toList ++ given es (e.apply c)

/-- Some sequence of edits makes the chain out of the empty one. -/
def Reachable (c : Chain) : Prop := ∃ es, c = run es empty

theorem reachable_empty : empty.Reachable := ⟨[], rfl⟩

theorem Reachable.apply {c : Chain} (h : c.Reachable) (e : Edit) : (e.apply c).Reachable := by
  obtain ⟨es, rfl⟩ := h
  exact ⟨es ++ [e], by simp [run_append]⟩

/-- What holds of the empty chain and survives every edit holds of every reachable chain. -/
theorem Reachable.induction {P : Chain → Prop} (h0 : P empty)
    (hs : ∀ c e, P c → P (Edit.apply e c)) {c : Chain} (h : c.Reachable) : P c := by
  obtain ⟨es, rfl⟩ := h
  have hrun : ∀ es c, P c → P (run es c) := by
    intro es
    induction es with
    | nil => exact fun c hc => hc
    | cons e es ih => exact fun c hc => ih _ (hs c e hc)
  exact hrun es empty h0

end Chain

end LinearSSA
