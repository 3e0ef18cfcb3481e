import LinearSSA.Stmt
import Std.Data.ExtTreeMap

/-! An index of the references of many statements, by the statement they point at. The
entries for a statement stand in the order in which they were recorded, and a reference that is
recorded twice has two entries. -/

namespace LinearSSA

/-- An entry for a statement: who holds a reference to it, and what the reference means. -/
structure Use where
  source : Label
  kind : RefKind
  deriving DecidableEq, Repr

def Use.isJump (u : Use) : Bool :=
  u.kind = .jump

structure RefIndex where
  /-- The entries for each statement that something points at. -/
  incoming : Std.ExtTreeMap Label (List Use)
  deriving DecidableEq

namespace RefIndex

def empty : RefIndex := ⟨∅⟩

/-- The entries for `t`, oldest first. -/
def refsTo (x : RefIndex) (t : Label) : List Use :=
  x.incoming[t]?.getD []

def isReferenced (x : RefIndex) (t : Label) : Bool :=
  !(x.refsTo t).isEmpty

/-- The number of entries for all statements together. -/
def size (x : RefIndex) : Nat := x.incoming.foldl (fun n _ us => n + us.length) 0

def isEmpty (x : RefIndex) : Bool := x.incoming.isEmpty

/-- Record that `l` holds the reference `r`. -/
def add (x : RefIndex) (l : Label) (r : Ref) : RefIndex :=
  ⟨x.incoming.insert r.target (x.refsTo r.target ++ [⟨l, r.kind⟩])⟩

/-- Put `us` in the place of the entries for `t`; a statement without entries is not listed. -/
def setRefs (x : RefIndex) (t : Label) (us : List Use) : RefIndex :=
  ⟨if us.isEmpty then x.incoming.erase t else x.incoming.insert t us⟩

/-- Forget the oldest entry that says that `l` holds `r`, and answer whether there was one. -/
def erase (x : RefIndex) (l : Label) (r : Ref) : Bool × RefIndex :=
  if ⟨l, r.kind⟩ ∈ x.refsTo r.target then
    (true, x.setRefs r.target ((x.refsTo r.target).erase ⟨l, r.kind⟩))
  else (false, x)

/-- Forget everything that points at `t`. -/
def clear (x : RefIndex) (t : Label) : RefIndex :=
  ⟨x.incoming.erase t⟩

/-- Record every reference of a statement under its label. -/
def insert (x : RefIndex) (l : Label) (s : Stmt) : RefIndex :=
  s.refs.foldl (fun x r => x.add l r) x

/-- Forget every reference of a statement, one entry for each. -/
def remove (x : RefIndex) (l : Label) (s : Stmt) : RefIndex :=
  s.refs.foldl (fun x r => (x.erase l r).2) x

/-! ### The entries after an operation -/

@[simp] theorem refsTo_empty (t : Label) : empty.refsTo t = [] := by
  simp [empty, refsTo]

theorem refsTo_add (x : RefIndex) (l t : Label) (r : Ref) :
    (x.add l r).refsTo t = if t = r.target then x.refsTo t ++ [⟨l, r.kind⟩] else x.refsTo t := by
  by_cases h : t = r.target
  · simp [add, refsTo, h]
  · simp [add, refsTo, Std.ExtTreeMap.getElem?_insert, h, Ne.symm h]

theorem refsTo_setRefs (x : RefIndex) (t t' : Label) (us : List Use) :
    (x.setRefs t us).refsTo t' = if t' = t then us else x.refsTo t' := by
  unfold setRefs refsTo
  by_cases h : t' = t
  · subst h
    cases us <;> simp
  · cases us <;> simp [Std.ExtTreeMap.getElem?_erase, Std.ExtTreeMap.getElem?_insert, h, Ne.symm h]

/-- Whether or not there is such an entry, the list loses its first one. -/
theorem refsTo_erase (x : RefIndex) (l t : Label) (r : Ref) :
    (x.erase l r).2.refsTo t =
      if t = r.target then (x.refsTo t).erase ⟨l, r.kind⟩ else x.refsTo t := by
  unfold erase
  split
  · rw [refsTo_setRefs]
    by_cases ht : t = r.target <;> simp [ht]
  · next h =>
    by_cases ht : t = r.target
    · subst ht
      simp [List.erase_of_not_mem h]
    · simp [ht]

theorem refsTo_clear (x : RefIndex) (t t' : Label) :
    (x.clear t).refsTo t' = if t' = t then [] else x.refsTo t' := by
  by_cases h : t' = t
  · simp [clear, refsTo, h]
  · simp [clear, refsTo, Std.ExtTreeMap.getElem?_erase, h, Ne.symm h]

end RefIndex

end LinearSSA
