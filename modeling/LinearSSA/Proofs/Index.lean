import LinearSSA.RefIndex
import Mathlib.Data.List.Basic

/-! The index as a multiset of references: how often it records that a statement holds a
reference, and how recording and forgetting change that number. The size of the index is the
number of all its entries, and an index that lists no statement in vain is empty only if there
are none. -/

namespace LinearSSA

/-- The entries for `t` that recording the statement under `l` adds. -/
def Stmt.uses (s : Stmt) (l t : Label) : List Use :=
  (s.refs.filter (·.target = t)).map fun r => ⟨l, r.kind⟩

theorem Stmt.source_of_mem_uses {s : Stmt} {l t : Label} {u : Use} (h : u ∈ s.uses l t) :
    u.source = l := by
  obtain ⟨r, -, rfl⟩ := List.mem_map.mp h
  rfl

theorem Stmt.uses_of_target_ne {s : Stmt} {l t : Label} (h : ∀ r ∈ s.refs, r.target ≠ t) :
    s.uses l t = [] := by
  rw [uses, List.filter_eq_nil_iff.mpr fun r hr => by simpa using h r hr, List.map_nil]

/-! ### Entries that are taken out -/

theorem append_diff_self (us vs : List Use) : (us ++ vs).diff us = vs := by
  induction us with
  | nil => rfl
  | cons u us ih => simp [ih]

theorem append_diff_of_disjoint {us ws : List Use} (h : ∀ u ∈ us, u ∉ ws) (vs : List Use) :
    (us ++ vs).diff ws = us ++ vs.diff ws := by
  induction ws generalizing vs with
  | nil => simp
  | cons w ws ih =>
    have hw : w ∉ us := fun hm => h w hm (by simp)
    rw [List.diff_cons, List.diff_cons, List.erase_append_right _ hw]
    exact ih (fun u hu hm => h u hu (by simp [hm])) _

namespace RefIndex

variable (x : RefIndex) (l k t : Label) (r q : Ref) (s : Stmt)

/-- How often it is recorded that `l` holds `r`. -/
def count : Nat := (x.refsTo r.target).count ⟨l, r.kind⟩

theorem count_pos_iff : 0 < x.count l r ↔ ⟨l, r.kind⟩ ∈ x.refsTo r.target :=
  List.count_pos_iff

@[simp] theorem count_empty : empty.count l r = 0 := by
  simp [count]

/-! ### One reference -/

theorem count_add :
    (x.add l r).count k q = x.count k q + if k = l ∧ q = r then 1 else 0 := by
  obtain ⟨t, kind⟩ := r
  obtain ⟨t', kind'⟩ := q
  rw [count, count, refsTo_add]
  by_cases ht : t' = t
  · by_cases hk : k = l ∧ kind' = kind
    · simp [ht, hk]
    · have hne : (⟨l, kind⟩ : Use) ≠ ⟨k, kind'⟩ := fun he => by
        cases he
        exact hk ⟨rfl, rfl⟩
      simp [ht, hne, hk]
  · simp [ht]

theorem count_erase :
    (x.erase l r).2.count k q = x.count k q - if k = l ∧ q = r then 1 else 0 := by
  obtain ⟨t, kind⟩ := r
  obtain ⟨t', kind'⟩ := q
  rw [count, count, refsTo_erase]
  by_cases ht : t' = t
  · by_cases hk : k = l ∧ kind' = kind
    · simp [ht, hk]
    · have hne : (⟨k, kind'⟩ : Use) ≠ ⟨l, kind⟩ := fun he => by
        cases he
        exact hk ⟨rfl, rfl⟩
      simp [ht, List.count_erase_of_ne hne, hk]
  · simp [ht]

theorem count_clear : (x.clear t).count k q = if q.target = t then 0 else x.count k q := by
  rw [count, count, refsTo_clear]
  split <;> simp

/-! ### The references of a statement -/

theorem count_insert :
    (x.insert l s).count k q = x.count k q + if k = l then s.refs.count q else 0 := by
  unfold insert
  induction s.refs generalizing x with
  | nil => simp
  | cons r rs ih =>
    rw [List.foldl_cons, ih, count_add, List.count_cons]
    by_cases hk : k = l
    · rcases eq_or_ne r q with rfl | hr
      · simp [hk]
        omega
      · simp [hk, hr, hr.symm]
    · simp [hk]

theorem count_remove :
    (x.remove l s).count k q = x.count k q - if k = l then s.refs.count q else 0 := by
  unfold remove
  induction s.refs generalizing x with
  | nil => simp
  | cons r rs ih =>
    rw [List.foldl_cons, ih, count_erase, List.count_cons]
    by_cases hk : k = l
    · rcases eq_or_ne r q with rfl | hr
      · simp [hk]
        omega
      · simp [hk, hr, hr.symm]
    · simp [hk]

/-- Recording puts the entries of a statement behind the others. -/
theorem refsTo_insert : (x.insert l s).refsTo t = x.refsTo t ++ s.uses l t := by
  unfold insert Stmt.uses
  induction s.refs generalizing x with
  | nil => simp
  | cons r rs ih =>
    rw [List.foldl_cons, ih, refsTo_add, List.filter_cons]
    by_cases ht : t = r.target
    · simp [ht]
    · simp [ht, Ne.symm ht]

/-- Forgetting takes the first of equal entries, one for each reference. -/
theorem refsTo_remove : (x.remove l s).refsTo t = (x.refsTo t).diff (s.uses l t) := by
  unfold remove Stmt.uses
  induction s.refs generalizing x with
  | nil => simp
  | cons r rs ih =>
    rw [List.foldl_cons, ih, refsTo_erase, List.filter_cons]
    by_cases ht : t = r.target
    · simp [ht]
    · simp [ht, Ne.symm ht]

/-! ### Statements that are listed -/

/-- A statement that nothing points at is not listed. -/
def Tight (x : RefIndex) : Prop := ∀ t : Label, x.incoming[t]? ≠ some []

variable {x}

theorem tight_empty : empty.Tight := by
  simp [Tight, empty]

theorem Tight.add (hx : x.Tight) : (x.add l r).Tight := by
  intro t
  by_cases ht : t = r.target
  · simp [RefIndex.add, ht]
  · simpa [RefIndex.add, Std.ExtTreeMap.getElem?_insert, Ne.symm ht] using hx t

theorem Tight.clear (hx : x.Tight) : (x.clear t).Tight := by
  intro t'
  by_cases ht : t' = t
  · simp [RefIndex.clear, ht]
  · simpa [RefIndex.clear, Std.ExtTreeMap.getElem?_erase, Ne.symm ht] using hx t'

theorem Tight.setRefs (hx : x.Tight) (us : List Use) : (x.setRefs t us).Tight := by
  intro t'
  by_cases hu : us.isEmpty
  · rw [RefIndex.setRefs, if_pos hu]
    exact hx.clear t t'
  · rw [RefIndex.setRefs, if_neg hu]
    by_cases ht : t' = t
    · simpa [ht] using hu
    · simpa [Std.ExtTreeMap.getElem?_insert, Ne.symm ht] using hx t'

theorem Tight.erase (hx : x.Tight) : (x.erase l r).2.Tight := by
  unfold RefIndex.erase
  split
  · exact hx.setRefs _ _
  · exact hx

theorem Tight.insert (hx : x.Tight) : (x.insert l s).Tight := by
  unfold RefIndex.insert
  induction s.refs generalizing x with
  | nil => exact hx
  | cons r rs ih => exact ih (hx.add l r)

theorem Tight.remove (hx : x.Tight) : (x.remove l s).Tight := by
  unfold RefIndex.remove
  induction s.refs generalizing x with
  | nil => exact hx
  | cons r rs ih => exact ih (hx.erase l r)

/-- The entries are all there is to an index that lists no statement in vain. -/
theorem Tight.ext {y : RefIndex} (hx : x.Tight) (hy : y.Tight)
    (h : ∀ t, x.refsTo t = y.refsTo t) : x = y := by
  obtain ⟨xs⟩ := x
  obtain ⟨ys⟩ := y
  refine congrArg mk (Std.ExtTreeMap.ext_getElem? fun t => ?_)
  have hxt : xs[t]? ≠ some [] := hx t
  have hyt : ys[t]? ≠ some [] := hy t
  have hsame : xs[t]?.getD [] = ys[t]?.getD [] := h t
  cases hus : xs[t]? <;> cases hvs : ys[t]? <;> simp_all

/-! ### All entries -/

variable (x)

/-- Everything that is recorded: who holds which reference. -/
def entries : List (Label × Ref) :=
  x.incoming.toList.flatMap fun p => p.2.map fun u => (u.source, ⟨p.1, u.kind⟩)

theorem length_entries : x.entries.length = x.size := by
  have hfold : ∀ (ps : List (Label × List Use)) (n : Nat),
      ps.foldl (fun n p => n + p.2.length) n =
        n + (ps.flatMap fun p => p.2.map fun u => (u.source, (⟨p.1, u.kind⟩ : Ref))).length := by
    intro ps
    induction ps with
    | nil => simp
    | cons p ps ih =>
      intro n
      rw [List.foldl_cons, ih, List.flatMap_cons, List.length_append, List.length_map]
      omega
  rw [size, Std.ExtTreeMap.foldl_eq_foldl_toList, hfold, Nat.zero_add, entries]

/-- The entries for one statement count only for references to it. -/
theorem count_map_entry (us : List Use) :
    (us.map fun u => (u.source, (⟨t, u.kind⟩ : Ref))).count (l, r) =
      if t = r.target then us.count ⟨l, r.kind⟩ else 0 := by
  obtain ⟨t', kind⟩ := r
  induction us with
  | nil => simp
  | cons u us ih =>
    obtain ⟨source, kind'⟩ := u
    rw [List.map_cons, List.count_cons, ih, List.count_cons]
    by_cases ht : t = t' <;> simp [ht]

theorem count_flatMap_entry (ps : List (Label × List Use))
    (hd : ps.Pairwise fun p p' => p.1 ≠ p'.1) :
    (ps.flatMap fun p => p.2.map fun u => (u.source, (⟨p.1, u.kind⟩ : Ref))).count (l, r) =
      (((ps.find? (·.1 = r.target)).map (·.2)).getD []).count ⟨l, r.kind⟩ := by
  induction ps with
  | nil => simp
  | cons p ps ih =>
    obtain ⟨hp, hd⟩ := List.pairwise_cons.mp hd
    rw [List.flatMap_cons, List.count_append, count_map_entry, ih hd, List.find?_cons]
    by_cases ht : p.1 = r.target
    · -- no other bucket of the list is the one of the target
      have hnone : ps.find? (·.1 = r.target) = none := by
        refine List.find?_eq_none.mpr fun p' hp' he => hp p' hp' ?_
        rw [ht, of_decide_eq_true he]
      simp [ht, hnone]
    · simp [ht]

theorem count_entries : x.entries.count (l, r) = x.count l r := by
  have hd : x.incoming.toList.Pairwise fun p p' => p.1 ≠ p'.1 := by
    refine Std.ExtTreeMap.distinct_keys_toList.imp fun h he => h ?_
    rw [he]
    exact Std.ReflCmp.compare_self
  rw [entries, count_flatMap_entry l r _ hd, count, refsTo]
  congr 2
  cases hf : x.incoming.toList.find? (·.1 = r.target) with
  | none =>
    symm
    refine Option.eq_none_iff_forall_ne_some.mpr fun us hus => ?_
    have hm := Std.ExtTreeMap.mem_toList_iff_getElem?_eq_some.mpr hus
    simpa using List.find?_eq_none.mp hf _ hm
  | some p =>
    have hp : p.1 = r.target := by simpa using List.find?_some hf
    have hm : (r.target, p.2) ∈ x.incoming.toList := hp ▸ List.mem_of_find?_eq_some hf
    exact (Std.ExtTreeMap.mem_toList_iff_getElem?_eq_some.mp hm).symm

variable {x}

theorem isEmpty_iff (hx : x.Tight) : x.isEmpty = true ↔ x.entries = [] := by
  rw [isEmpty, Std.ExtTreeMap.isEmpty_iff, entries, List.flatMap_eq_nil_iff]
  constructor
  · intro h
    simp [h]
  · intro h
    rw [← Std.ExtTreeMap.toList_eq_nil_iff, List.eq_nil_iff_forall_not_mem]
    rintro ⟨t, us⟩ hm
    have hus : us = [] := List.map_eq_nil_iff.mp (h _ hm)
    exact hx t (hus ▸ Std.ExtTreeMap.mem_toList_iff_getElem?_eq_some.mp hm)

end RefIndex

end LinearSSA
