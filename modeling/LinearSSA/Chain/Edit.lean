import LinearSSA.Chain.Outcome

/-! Edits that add statements to a chain or change the ones it has. Every change of a
statement takes its references out of the index and records them again afterwards, so that
they become the youngest ones. -/

namespace LinearSSA.Chain

variable {α : Type}

/-! ### New statements -/

/-- Give a label to `s` and put it at position `i` of the program order. -/
def place (c : Chain) (i : Nat) (s : Stmt) : Label × Chain :=
  let l : Label := ⟨c.next⟩
  (l, { slots := c.slots ++ [some s]
        labels := c.labels.insertIdx i l
        index := c.index.insert l s })

/-- Add a statement at the end. -/
def push (c : Chain) (s : Stmt) : Label × Chain :=
  c.place c.size s

def ofList (ss : List Stmt) : Chain :=
  ss.foldl (fun c s => (c.push s).2) empty

def insertBefore (c : Chain) (anchor : Label) (s : Stmt) : Outcome Label :=
  match c.position? anchor with
  | none => .refused (.unknownStmt anchor) c
  | some i => let (l, c') := c.place i s; .done l c'

def insertAfter (c : Chain) (anchor : Label) (s : Stmt) : Outcome Label :=
  match c.position? anchor with
  | none => .refused (.unknownStmt anchor) c
  | some i => let (l, c') := c.place (i + 1) s; .done l c'

/-! ### Changed statements -/

/-- Change a statement; a label that the chain does not have changes nothing. -/
def update (c : Chain) (l : Label) (f : Stmt → Stmt) : Chain :=
  match c.get? l with
  | none => c
  | some s =>
    { c with
      slots := c.slots.set l.index (some (f s))
      index := (c.index.remove l s).insert l (f s) }

/-- Change a statement and answer what `f` found. -/
def modify (c : Chain) (l : Label) (f : Stmt → α × Stmt) : Outcome α :=
  match c.get? l with
  | none => .refused (.unknownStmt l) c
  | some s => .done (f s).1 (c.update l fun s => (f s).2)

/-- Put another statement in the place of one, and answer the old one. -/
def replace (c : Chain) (l : Label) (s : Stmt) : Outcome Stmt :=
  c.modify l fun old => (old, s)

/-! ### Redirected jumps -/

/-- Keep one of equal elements that stand side by side. -/
def collapse [DecidableEq α] : List α → List α
  | [] => []
  | [a] => [a]
  | a :: b :: as => if a = b then collapse (b :: as) else a :: collapse (b :: as)

/-- Let the jumps to `old` of the statements under `sources` go to `new`, one statement after
another, and count them. -/
def retargetEach (old new : Label) : List Label → Chain → Outcome Nat
  | [], c => .done 0 c
  | l :: ls, c =>
    (c.modify l (·.retargetCounted old new)).bind fun n c =>
      (retargetEach old new ls c).map (n + ·)

/-- The statements that the index records with a jump to `l`, side by side ones named once. -/
def jumpSources (c : Chain) (l : Label) : List Label :=
  collapse (((c.refsTo l).filter (·.isJump)).map (·.source))

/-- Let every recorded jump to `old` go to `new`, and count them. -/
def retarget (c : Chain) (old new : Label) : Outcome Nat :=
  if !c.contains old then .refused (.unknownStmt old) c
  else if !c.contains new then .refused (.unknownStmt new) c
  else retargetEach old new (c.jumpSources old) c

/-! ### Labels and statements after an edit -/

@[simp] theorem labels_place (c : Chain) (i : Nat) (s : Stmt) :
    (c.place i s).2.labels = c.labels.insertIdx i ⟨c.next⟩ := rfl

theorem get?_place (c : Chain) (i : Nat) (s : Stmt) (k : Label) :
    (c.place i s).2.get? k = if k = ⟨c.next⟩ then some s else c.get? k := by
  obtain ⟨k⟩ := k
  simp only [place, get?, Label.mk.injEq]
  by_cases hk : k = c.next
  · subst hk
    simp [next]
  · rw [if_neg hk]
    rcases Nat.lt_or_gt_of_ne hk with h | h
    · rw [List.getElem?_append_left h]
    · have hlt : c.slots.length < k := h
      have hle : (c.slots ++ [some s]).length ≤ k := by
        rw [List.length_append, List.length_singleton]
        omega
      rw [List.getElem?_eq_none hle, List.getElem?_eq_none (Nat.le_of_lt hlt)]

@[simp] theorem labels_update (c : Chain) (l : Label) (f : Stmt → Stmt) :
    (c.update l f).labels = c.labels := by
  unfold update
  split <;> rfl

@[simp] theorem next_update (c : Chain) (l : Label) (f : Stmt → Stmt) :
    (c.update l f).next = c.next := by
  unfold update
  split <;> simp [next]

/-- An update changes the statement under one label. -/
theorem get?_update (c : Chain) (l k : Label) (f : Stmt → Stmt) :
    (c.update l f).get? k = if k = l then (c.get? l).map f else c.get? k := by
  unfold update
  split
  · next h => by_cases hk : k = l <;> simp [hk, h]
  · next s h =>
    rw [get?, join_getElem?_set h, h]
    rfl

@[simp] theorem contains_update (c : Chain) (l k : Label) (f : Stmt → Stmt) :
    (c.update l f).contains k = c.contains k := by
  rw [contains, contains, get?_update]
  by_cases hk : k = l <;> simp [hk]

/-- A change that answers something leaves the chain of the change alone. -/
@[simp] theorem chain_modify (c : Chain) (l : Label) (f : Stmt → α × Stmt) :
    (c.modify l f).chain = c.update l fun s => (f s).2 := by
  unfold modify
  split
  · next h => simp [Outcome.refused, update, h]
  · rfl

/-! ### The number of labels given so far -/

@[simp] theorem next_place (c : Chain) (i : Nat) (s : Stmt) :
    (c.place i s).2.next = c.next + 1 := by
  simp [place, next]

theorem next_retargetEach (old new : Label) (ls : List Label) (c : Chain) :
    (retargetEach old new ls c).chain.next = c.next := by
  induction ls generalizing c with
  | nil => rfl
  | cons l ls ih =>
    refine Outcome.chain_bind (P := (·.next = c.next)) ?_ fun n c' hc' => ?_
    · rw [chain_modify, next_update]
    · rw [Outcome.chain_map, ih, hc']

@[simp] theorem next_retarget (c : Chain) (old new : Label) :
    (c.retarget old new).chain.next = c.next := by
  unfold retarget
  split
  · rfl
  · split
    · rfl
    · exact next_retargetEach old new _ c

/-! ### Edits that are done or refused -/

theorem insertBefore_cases (c : Chain) (anchor : Label) (s : Stmt) :
    c.insertBefore anchor s = .refused (.unknownStmt anchor) c ∨
      ∃ i ≤ c.labels.length, c.insertBefore anchor s = .done ⟨c.next⟩ (c.place i s).2 := by
  unfold insertBefore
  split
  · exact .inl rfl
  · next i hi => exact .inr ⟨i, Nat.le_of_lt (lt_of_position? hi), rfl⟩

theorem insertAfter_cases (c : Chain) (anchor : Label) (s : Stmt) :
    c.insertAfter anchor s = .refused (.unknownStmt anchor) c ∨
      ∃ i ≤ c.labels.length, c.insertAfter anchor s = .done ⟨c.next⟩ (c.place i s).2 := by
  unfold insertAfter
  split
  · exact .inl rfl
  · next i hi => exact .inr ⟨i + 1, lt_of_position? hi, rfl⟩

theorem modify_cases (c : Chain) (l : Label) (f : Stmt → α × Stmt) :
    c.modify l f = .refused (.unknownStmt l) c ∨
      ∃ a, c.modify l f = .done a (c.update l fun s => (f s).2) := by
  unfold modify
  split
  · exact .inl rfl
  · next s _ => exact .inr ⟨(f s).1, rfl⟩

end LinearSSA.Chain
