import LinearSSA.RefIndex

/-! Chains: the statements of a body in program order. A chain labels its statements itself
and never gives a label twice. Beside the statements it keeps an index of the references that
they hold, by the statement they point at. -/

namespace LinearSSA

/-- A statement under its label. -/
structure Line where
  label : Label
  stmt : Stmt
  deriving DecidableEq, Repr

/-- A line with its end. -/
def Line.text (x : Line) : String := s!"{x.label.text}: {x.stmt.text}\n"

structure Chain where
  /-- The statements by the numbers of their labels; one that was removed leaves a gap. -/
  slots : List (Option Stmt)
  /-- The labels in program order. -/
  labels : List Label
  index : RefIndex
  deriving DecidableEq

namespace Chain

def empty : Chain := ⟨[], [], .empty⟩

/-- The number of labels given so far, which is the index of the next one. -/
def next (c : Chain) : Nat := c.slots.length

def size (c : Chain) : Nat := c.labels.length

def isEmpty (c : Chain) : Bool := c.labels.isEmpty

def get? (c : Chain) (l : Label) : Option Stmt := c.slots[l.index]?.join

def contains (c : Chain) (l : Label) : Bool := (c.get? l).isSome

/-! ### Program order -/

def position? (c : Chain) (l : Label) : Option Nat := c.labels.idxOf? l

def first? (c : Chain) : Option Label := c.labels.head?

def last? (c : Chain) : Option Label := c.labels.getLast?

/-- The label right after `l`. -/
def after? (c : Chain) (l : Label) : Option Label :=
  (c.position? l).bind fun i => c.labels[i + 1]?

/-- The label right before `l`. -/
def before? (c : Chain) (l : Label) : Option Label :=
  match c.position? l with
  | some (i + 1) => c.labels[i]?
  | _ => none

/-- The statements in program order. -/
def lines (c : Chain) : List Line :=
  c.labels.filterMap fun l => (c.get? l).map (⟨l, ·⟩)

/-! ### References and control -/

/-- The recorded references to `l`, oldest first. -/
def refsTo (c : Chain) (l : Label) : List Use := c.index.refsTo l

/-- Whether the index records a jump to `l`. -/
def isBranchedTo (c : Chain) (l : Label) : Bool :=
  (c.refsTo l).any (·.isJump)

/-- The recorded phi arguments that come from `l`. -/
def provenanceOf (c : Chain) (l : Label) : List Use :=
  (c.refsTo l).filter (!·.isJump)

/-- The line before `l`, if control can go on from there to `l`. -/
def fallsInto? (c : Chain) (l : Label) : Option Label :=
  (c.before? l).filter fun p => (c.get? p).any (·.fallsThrough)

/-- The lines that hold a jump to `l`, in program order. -/
def jumpersTo (c : Chain) (l : Label) : List Label :=
  (c.lines.filter (l ∈ ·.stmt.jumpTargets)).map (·.label)

/-- The phi statements in program order. -/
def phis (c : Chain) : List (Label × Phi) :=
  c.lines.filterMap fun x => x.stmt.phi?.map (x.label, ·)

def text (c : Chain) : String :=
  String.join (c.lines.map Line.text)

/-! ### Lookup -/

@[simp] theorem labels_empty : empty.labels = [] := rfl

@[simp] theorem get?_empty (l : Label) : empty.get? l = none := rfl

theorem contains_iff {c : Chain} {l : Label} :
    c.contains l = true ↔ ∃ s, c.get? l = some s :=
  Option.isSome_iff_exists

theorem position?_isSome {c : Chain} {l : Label} :
    (c.position? l).isSome = true ↔ l ∈ c.labels := by
  simp [position?]

theorem lt_of_position? {c : Chain} {l : Label} {i : Nat} (h : c.position? l = some i) :
    i < c.labels.length := by
  obtain ⟨hi, -⟩ := List.idxOf?_eq_some_iff.mp h
  exact hi

theorem mem_lines {c : Chain} {x : Line} :
    x ∈ c.lines ↔ x.label ∈ c.labels ∧ c.get? x.label = some x.stmt := by
  obtain ⟨l, s⟩ := x
  simp only [lines, List.mem_filterMap, Option.map_eq_some_iff, Line.mk.injEq]
  constructor
  · rintro ⟨k, hk, t, ht, rfl, rfl⟩
    exact ⟨hk, ht⟩
  · rintro ⟨hl, hs⟩
    exact ⟨l, hl, s, hs, rfl, rfl⟩

/-- A label that has been given away has a number below that of the next one. -/
theorem index_lt_of_get? {c : Chain} {l : Label} {s : Stmt} (h : c.get? l = some s) :
    l.index < c.next := by
  refine Nat.lt_of_not_le fun hl => ?_
  rw [get?, List.getElem?_eq_none hl] at h
  cases h

/-- Writing into the slot of a statement changes what stands under its label only. -/
theorem join_getElem?_set {c : Chain} {l : Label} {s : Stmt} (h : c.get? l = some s)
    (o : Option Stmt) (k : Label) :
    (c.slots.set l.index o)[k.index]?.join = if k = l then o else c.get? k := by
  rw [List.getElem?_set]
  by_cases hk : k = l
  · subst hk
    have hlt : k.index < c.slots.length := index_lt_of_get? h
    simp [hlt]
  · have hi : l.index ≠ k.index := fun hi => hk (Label.ext hi.symm)
    rw [if_neg hi, if_neg hk, get?]

end Chain

end LinearSSA
