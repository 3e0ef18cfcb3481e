import LinearSSA.Chain.Basic

/-! The outcome of an edit: its result or the fault that refused it, and the chain as it is
afterwards. The two are separate because an edit in several steps can be refused in a later
one, and what the earlier steps did then stays. -/

namespace LinearSSA

structure Outcome (α : Type) where
  result : Except Fault α
  chain : Chain

namespace Outcome

variable {α β : Type}

def done (a : α) (c : Chain) : Outcome α := ⟨.ok a, c⟩

def refused (e : Fault) (c : Chain) : Outcome α := ⟨.error e, c⟩

/-- Go on from the chain of a step that was not refused. -/
def bind (o : Outcome α) (f : α → Chain → Outcome β) : Outcome β :=
  match o.result with
  | .ok a => f a o.chain
  | .error e => refused e o.chain

def map (f : α → β) (o : Outcome α) : Outcome β :=
  o.bind fun a c => done (f a) c

@[simp] theorem chain_done (a : α) (c : Chain) : (done a c).chain = c := rfl

@[simp] theorem chain_refused (e : Fault) (c : Chain) : (refused e c : Outcome α).chain = c := rfl

@[simp] theorem done_bind (a : α) (c : Chain) (f : α → Chain → Outcome β) :
    (done a c).bind f = f a c := rfl

@[simp] theorem refused_bind (e : Fault) (c : Chain) (f : α → Chain → Outcome β) :
    (refused e c : Outcome α).bind f = refused e c := rfl

/-- What holds after the first step and survives the second one holds after both. -/
theorem chain_bind {P : Chain → Prop} {o : Outcome α} {f : α → Chain → Outcome β}
    (ho : P o.chain) (hf : ∀ a c, P c → P (f a c).chain) : P (o.bind f).chain := by
  unfold bind
  split
  · exact hf _ _ ho
  · exact ho

@[simp] theorem map_done (f : α → β) (a : α) (c : Chain) : (done a c).map f = done (f a) c := rfl

@[simp] theorem map_refused (f : α → β) (e : Fault) (c : Chain) :
    (refused e c : Outcome α).map f = refused e c := rfl

theorem result_map (f : α → β) (o : Outcome α) : (o.map f).result = o.result.map f := by
  obtain ⟨r, c⟩ := o
  cases r <;> rfl

@[simp] theorem chain_map (f : α → β) (o : Outcome α) : (o.map f).chain = o.chain := by
  obtain ⟨r, c⟩ := o
  cases r <;> rfl

end Outcome

end LinearSSA
