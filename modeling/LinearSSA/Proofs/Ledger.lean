import LinearSSA.Proofs.Index
import Mathlib.Algebra.Ring.Nat
import Mathlib.Data.List.DropRight
import Mathlib.Data.List.Perm.Basic

/-! The history of an index by itself, without a chain that keeps it in step with its statements:
references are recorded and forgotten in any order, also such as were never recorded. The entries
for a statement stand in the order in which they were recorded, there are as many of each as its
history says, and no statement is listed without entries. Recording a statement and forgetting it
again restores the entries, and their order unless the statement had some before. -/

namespace LinearSSA.RefIndex

/-! ### Histories -/

/-- One reference is recorded or forgotten, or all those to one statement are dropped. -/
inductive Step where
  | add (l : Label) (r : Ref)
  | erase (l : Label) (r : Ref)
  | clear (t : Label)

/-- What a step did; `missed` says that there was no entry to forget. -/
inductive Event where
  | added (l : Label) (r : Ref)
  | forgot (l : Label) (r : Ref)
  | missed (l : Label) (r : Ref)
  | cleared (t : Label)
  deriving DecidableEq

namespace Step

def apply : Step → RefIndex → RefIndex
  | add l r, x => x.add l r
  | erase l r, x => (x.erase l r).2
  | clear t, x => x.clear t

def event : Step → RefIndex → Event
  | add l r, _ => .added l r
  | erase l r, x => if (x.erase l r).1 then .forgot l r else .missed l r
  | clear t, _ => .cleared t

end Step

/-- The operations on an index: a step by itself, or one step for each reference of a statement. -/
inductive Op where
  | step (s : Step)
  | insert (l : Label) (s : Stmt)
  | remove (l : Label) (s : Stmt)

namespace Op

def apply : Op → RefIndex → RefIndex
  | step s, x => s.apply x
  | insert l s, x => x.insert l s
  | remove l s, x => x.remove l s

def steps : Op → List Step
  | step s => [s]
  | insert l s => s.refs.map (.add l)
  | remove l s => s.refs.map (.erase l)

end Op

def run (ops : List Op) (x : RefIndex) : RefIndex := ops.foldl (fun x o => o.apply x) x

/-- The index after a row of steps. -/
def after (ss : List Step) (x : RefIndex) : RefIndex := ss.foldl (fun x s => s.apply x) x

/-- What a row of steps did, oldest first. -/
def events : List Step → RefIndex → List Event
  | [], _ => []
  | s :: ss, x => s.event x :: events ss (s.apply x)

/-- What a sequence of operations did, step by step. -/
def log (ops : List Op) (x : RefIndex) : List Event := events (ops.flatMap Op.steps) x

/-- The events after the entries for `t` were last dropped. -/
def since (t : Label) (es : List Event) : List Event := es.rtakeWhile (· ≠ .cleared t)

/-- The entry for `t` that an event added. -/
def Event.use? (t : Label) : Event → Option Use
  | added l r => if r.target = t then some ⟨l, r.kind⟩ else none
  | _ => none

variable {x : RefIndex} {l t : Label} {r : Ref} {s : Stmt} {es : List Event}

theorem after_append (ss ss' : List Step) (x : RefIndex) :
    after (ss ++ ss') x = after ss' (after ss x) :=
  List.foldl_append

theorem Op.after_steps (o : Op) (x : RefIndex) : after o.steps x = o.apply x := by
  cases o with
  | step s => rfl
  | insert l s => exact List.foldl_map
  | remove l s => exact List.foldl_map

theorem after_flatMap_steps (ops : List Op) (x : RefIndex) :
    after (ops.flatMap Op.steps) x = run ops x := by
  induction ops generalizing x with
  | nil => rfl
  | cons o ops ih => rw [List.flatMap_cons, after_append, o.after_steps, ih]; rfl

theorem since_concat (t : Label) (es : List Event) (e : Event) :
    since t (es ++ [e]) = if e = .cleared t then [] else since t es ++ [e] := by
  rw [since, List.rtakeWhile_concat]
  by_cases he : e = .cleared t <;> simp [he, since]

theorem count_concat (es : List Event) (e e' : Event) :
    (es ++ [e']).count e = es.count e + if e' = e then 1 else 0 := by
  rw [List.count_append, List.count_singleton]
  simp

/-! ### Forgetting one reference -/

theorem erase_fst_iff : (x.erase l r).1 = true ↔ 0 < x.count l r := by
  rw [count_pos_iff, erase]
  split <;> simp [*]

theorem erase_of_missing (h : (x.erase l r).1 = false) : (x.erase l r).2 = x := by
  unfold erase at h ⊢
  split
  · next hm => simp [hm] at h
  · rfl

/-- The oldest entry goes, and the others keep their order. -/
theorem exists_refsTo_erase (h : (x.erase l r).1 = true) :
    ∃ us vs, x.refsTo r.target = us ++ ⟨l, r.kind⟩ :: vs ∧ ⟨l, r.kind⟩ ∉ us ∧
      ∀ t, (x.erase l r).2.refsTo t = if t = r.target then us ++ vs else x.refsTo t := by
  have hm := (count_pos_iff x l r).mp (erase_fst_iff.mp h)
  obtain ⟨us, vs, hus, hsplit, herase⟩ := List.exists_erase_eq hm
  refine ⟨us, vs, hsplit, hus, fun t => ?_⟩
  rw [refsTo_erase]
  by_cases ht : t = r.target
  · rw [if_pos ht, if_pos ht, ht, herase]
  · rw [if_neg ht, if_neg ht]

/-! ### What a history says -/

/-- Since the entries for a statement were last dropped, each of them was added as often as it is
there or was forgotten again, and they stand in the order in which they were added. -/
structure Tallies (x : RefIndex) (es : List Event) : Prop where
  count : ∀ l r, x.count l r + (since r.target es).count (.forgot l r) =
    (since r.target es).count (.added l r)
  sublist : ∀ t, (x.refsTo t).Sublist ((since t es).filterMap (·.use? t))

namespace Tallies

theorem empty : RefIndex.empty.Tallies [] where
  count l r := by simp [since]
  sublist t := by simp

theorem add (h : x.Tallies es) (l : Label) (r : Ref) :
    (x.add l r).Tallies (es ++ [.added l r]) where
  count k q := by
    have hold := h.count k q
    simp only [count_add, since_concat, reduceCtorEq, if_false, count_concat, Event.added.injEq,
      eq_comm (a := l), eq_comm (a := r)]
    split <;> omega
  sublist t := by
    simp only [refsTo_add, since_concat, reduceCtorEq, if_false, List.filterMap_append]
    by_cases ht : t = r.target
    · subst ht
      simpa [Event.use?] using (h.sublist r.target).append_right [⟨l, r.kind⟩]
    · simpa [Event.use?, ht, Ne.symm ht] using h.sublist t

theorem forgot (h : x.Tallies es) (hm : (x.erase l r).1 = true) :
    (x.erase l r).2.Tallies (es ++ [.forgot l r]) where
  count k q := by
    have hold := h.count k q
    have hpos := erase_fst_iff.mp hm
    simp only [count_erase, since_concat, reduceCtorEq, if_false, count_concat, Event.forgot.injEq,
      eq_comm (a := l), eq_comm (a := r)]
    split
    · next hq =>
      obtain ⟨rfl, rfl⟩ := hq
      omega
    · omega
  sublist t := by
    simp only [refsTo_erase, since_concat, reduceCtorEq, if_false, List.filterMap_append]
    have hold := h.sublist t
    split
    · simpa [Event.use?] using List.erase_sublist.trans hold
    · simpa [Event.use?] using hold

theorem missed (h : x.Tallies es) (l : Label) (r : Ref) : x.Tallies (es ++ [.missed l r]) where
  count k q := by simpa [since_concat] using h.count k q
  sublist t := by simpa [since_concat, Event.use?] using h.sublist t

theorem clear (h : x.Tallies es) (t : Label) : (x.clear t).Tallies (es ++ [.cleared t]) where
  count k q := by
    rw [count_clear, since_concat]
    by_cases hq : q.target = t
    · simp [hq]
    · simpa [hq, Ne.symm hq] using h.count k q
  sublist t' := by
    rw [refsTo_clear, since_concat]
    by_cases ht : t' = t
    · simp [ht]
    · simpa [ht, Ne.symm ht, Event.use?] using h.sublist t'

/-- What one step preserves. -/
theorem step (h : x.Tallies es) (s : Step) : (s.apply x).Tallies (es ++ [s.event x]) := by
  cases s with
  | add l r => exact h.add l r
  | clear t => exact h.clear t
  | erase l r =>
    cases hm : (x.erase l r).1 with
    | true => simpa [Step.apply, Step.event, hm] using h.forgot hm
    | false => simpa [Step.apply, Step.event, hm, erase_of_missing hm] using h.missed l r

/-- What all steps together preserve. -/
theorem events (h : x.Tallies es) (ss : List Step) :
    (after ss x).Tallies (es ++ RefIndex.events ss x) := by
  induction ss generalizing x es with
  | nil => simpa [RefIndex.events, after] using h
  | cons s ss ih =>
    rw [RefIndex.events, List.append_cons]
    exact ih (h.step s)

theorem run (ops : List Op) :
    (RefIndex.run ops RefIndex.empty).Tallies (log ops RefIndex.empty) := by
  rw [← after_flatMap_steps]
  exact Tallies.empty.events _

end Tallies

/-! ### Statements that are listed -/

/-- The statements that are listed with their entries, in the order of their labels. -/
def targets (x : RefIndex) : List Label := x.incoming.keys

theorem Tight.run (hx : x.Tight) (ops : List Op) : (run ops x).Tight := by
  induction ops generalizing x with
  | nil => exact hx
  | cons o ops ih =>
    refine ih ?_
    cases o with
    | insert l s => exact hx.insert l s
    | remove l s => exact hx.remove l s
    | step s =>
      cases s with
      | add l r => exact hx.add l r
      | erase l r => exact hx.erase l r
      | clear t => exact hx.clear t

theorem nodup_targets (x : RefIndex) : x.targets.Nodup := Std.ExtTreeMap.nodup_keys

theorem mem_targets (hx : x.Tight) : t ∈ x.targets ↔ x.isReferenced t = true := by
  have hne := hx t
  rw [targets, Std.ExtTreeMap.mem_keys, Std.ExtTreeMap.mem_iff_isSome_getElem?, isReferenced,
    refsTo]
  cases hus : x.incoming[t]? with
  | none => simp
  | some us =>
    rw [hus] at hne
    simpa using hne

/-- The size is the number of entries, counted statement by statement. -/
theorem size_eq_sum (x : RefIndex) :
    x.size = (x.targets.map fun t => (x.refsTo t).length).sum := by
  rw [← length_entries, entries, List.length_flatMap, targets,
    ← Std.ExtTreeMap.map_fst_toList_eq_keys, List.map_map]
  congr 1
  refine List.map_congr_left fun p hp => ?_
  have hus : x.incoming[p.1]? = some p.2 := Std.ExtTreeMap.mem_toList_iff_getElem?_eq_some.mp hp
  simp [refsTo, hus]

theorem isEmpty_iff_size (hx : x.Tight) : x.isEmpty = true ↔ x.size = 0 := by
  rw [isEmpty_iff hx, ← length_entries, List.length_eq_zero_iff]

theorem isEmpty_iff_isReferenced (hx : x.Tight) :
    x.isEmpty = true ↔ ∀ t, x.isReferenced t = false := by
  rw [isEmpty, Std.ExtTreeMap.isEmpty_iff, Std.ExtTreeMap.eq_empty_iff_forall_not_mem]
  refine forall_congr' fun t => ?_
  rw [← Std.ExtTreeMap.mem_keys, ← targets, mem_targets hx, Bool.not_eq_true]

/-! ### A statement that is recorded and forgotten -/

theorem refsTo_remove_insert_perm (x : RefIndex) (l t : Label) (s : Stmt) :
    (((x.insert l s).remove l s).refsTo t).Perm (x.refsTo t) := by
  rw [refsTo_remove, refsTo_insert]
  have hfront := append_diff_self (s.uses l t) (x.refsTo t)
  have hperm : (x.refsTo t ++ s.uses l t).Perm (s.uses l t ++ x.refsTo t) := List.perm_append_comm
  simpa only [hfront] using hperm.diff_right (s.uses l t)

/-- The entries of the statement are those that were recorded last. -/
theorem refsTo_remove_insert (h : ∀ u ∈ x.refsTo t, u.source ≠ l) (s : Stmt) :
    ((x.insert l s).remove l s).refsTo t = x.refsTo t := by
  have hdisj : ∀ u ∈ x.refsTo t, u ∉ s.uses l t := fun u hu hm =>
    h u hu (Stmt.source_of_mem_uses hm)
  have hself : (s.uses l t).diff (s.uses l t) = [] := by
    simpa using append_diff_self (s.uses l t) []
  rw [refsTo_remove, refsTo_insert, append_diff_of_disjoint hdisj, hself, List.append_nil]

/-! ### Any history -/

/-- After any operations, the entries are those of a multiset with an order: as many as were added
and not forgotten since they were last dropped, in the order of their adding, and forgetting one
takes the oldest. -/
theorem run_ordered_multiset (ops : List Op) :
    let x := run ops empty
    let past := fun t => since t (log ops empty)
    (∀ l r, (x.refsTo r.target).count ⟨l, r.kind⟩ + (past r.target).count (.forgot l r) =
      (past r.target).count (.added l r)) ∧
    (∀ t, (x.refsTo t).Sublist ((past t).filterMap (·.use? t))) ∧
    (∀ l r, ((x.erase l r).1 = true ↔ 0 < (x.refsTo r.target).count ⟨l, r.kind⟩) ∧
      ((x.erase l r).1 = true → ∃ us vs, x.refsTo r.target = us ++ ⟨l, r.kind⟩ :: vs ∧
        ⟨l, r.kind⟩ ∉ us ∧
        ∀ t, (x.erase l r).2.refsTo t = if t = r.target then us ++ vs else x.refsTo t) ∧
      ((x.erase l r).1 = false → (x.erase l r).2 = x)) ∧
    x.targets.Nodup ∧ (∀ t, t ∈ x.targets ↔ x.isReferenced t = true) ∧
    x.size = (x.targets.map fun t => (x.refsTo t).length).sum ∧
    (x.isEmpty = true ↔ x.size = 0) ∧ (x.isEmpty = true ↔ ∀ t, x.isReferenced t = false) ∧
    ∀ l s, (∀ t, (((x.insert l s).remove l s).refsTo t).Perm (x.refsTo t)) ∧
      ((∀ t, ∀ u ∈ x.refsTo t, u.source ≠ l) →
        ∀ t, ((x.insert l s).remove l s).refsTo t = x.refsTo t) := by
  intro x past
  have hlog : x.Tallies (log ops empty) := Tallies.run ops
  have hx : x.Tight := tight_empty.run ops
  refine ⟨hlog.count, hlog.sublist, fun l r => ?_, nodup_targets x, fun t => mem_targets hx,
    size_eq_sum x, isEmpty_iff_size hx, isEmpty_iff_isReferenced hx, fun l s => ?_⟩
  · exact ⟨erase_fst_iff, exists_refsTo_erase, erase_of_missing⟩
  · exact ⟨fun t => refsTo_remove_insert_perm x l t s, fun h t => refsTo_remove_insert (h t) s⟩

/-- A switch that names a label twice, a goto that was never recorded, and entries that are
forgotten and dropped in between. -/
theorem run_ordered_multiset_of_switch :
    let ops : List Op := [.insert ⟨1⟩ (.switch (.var ⟨0⟩) [⟨4⟩, ⟨4⟩] ⟨5⟩), .remove ⟨2⟩ (.goto ⟨4⟩),
      .step (.add ⟨3⟩ ⟨⟨4⟩, .provenance⟩), .step (.erase ⟨1⟩ ⟨⟨4⟩, .jump⟩), .step (.clear ⟨5⟩)]
    let x := run ops empty
    let s : Stmt := .branch (.var ⟨0⟩) ⟨4⟩
    x.refsTo ⟨4⟩ = [⟨⟨1⟩, .jump⟩, ⟨⟨3⟩, .provenance⟩] ∧ x.size = 2 ∧
      (x.erase ⟨1⟩ ⟨⟨4⟩, .jump⟩).1 = true ∧ (x.erase ⟨2⟩ ⟨⟨4⟩, .jump⟩).2 = x ∧
      (∀ t, ∀ u ∈ x.refsTo t, u.source ≠ ⟨7⟩) ∧
      ((x.insert ⟨7⟩ s).remove ⟨7⟩ s).refsTo ⟨4⟩ = x.refsTo ⟨4⟩ := by
  intro ops x s
  obtain ⟨-, -, herase, -, htargets, hsize, -, -, hrestore⟩ := run_ordered_multiset ops
  have hrefs : x.refsTo ⟨4⟩ = [⟨⟨1⟩, .jump⟩, ⟨⟨3⟩, .provenance⟩] := by rfl
  have hmissing : (x.erase ⟨2⟩ ⟨⟨4⟩, .jump⟩).1 = false := by rfl
  have hlisted : x.targets = [⟨4⟩] := by rfl
  have hfree : ∀ t, ∀ u ∈ x.refsTo t, u.source ≠ ⟨7⟩ := by
    intro t u hu
    have href : x.isReferenced t = true := by simpa [isReferenced] using List.ne_nil_of_mem hu
    have ht : t ∈ x.targets := (htargets t).mpr href
    obtain rfl : t = ⟨4⟩ := by simpa [hlisted] using ht
    rw [hrefs] at hu
    revert u
    decide
  exact ⟨hrefs, hsize.trans (by rfl), (herase ⟨1⟩ _).1.mpr (by decide),
    (herase ⟨2⟩ _).2.2 hmissing, hfree, (hrestore ⟨7⟩ s).2 hfree ⟨4⟩⟩

end LinearSSA.RefIndex
