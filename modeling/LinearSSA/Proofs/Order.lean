import LinearSSA.Chain.Basic
import Mathlib.Data.List.Nodup
import Mathlib.Tactic.Cases

/-! Program order without repetitions. There the line after a label and the line before one are
each other's inverse, and taking a label out lets the line before it be followed by the line
after it. -/

namespace LinearSSA

/-- The label that follows the first `a` of a list. -/
def follower (a : Label) : List Label → Option Label
  | [] => none
  | x :: xs => if x = a then xs.head? else follower a xs

theorem follower_eq (a : Label) (ls : List Label) :
    follower a ls = (ls.idxOf? a).bind fun i => ls[i + 1]? := by
  induction ls with
  | nil => rfl
  | cons x xs ih =>
    by_cases h : x = a
    · simp [follower, List.idxOf?_cons, h, List.head?_eq_getElem?]
    · rw [follower, if_neg h, ih, List.idxOf?_cons, if_neg (by simpa using h), Option.bind_map]
      rfl

theorem mem_of_follower {a b : Label} {ls : List Label} (h : follower a ls = some b) : b ∈ ls := by
  rw [follower_eq] at h
  obtain ⟨i, -, hi⟩ := Option.bind_eq_some_iff.mp h
  exact List.mem_of_getElem? hi

/-- Without `l`, what `l` followed is followed by what followed `l`. -/
theorem follower_erase {a l : Label} (hal : a ≠ l) {ls : List Label} (hd : ls.Nodup) :
    follower a (ls.erase l) =
      if follower a ls = some l then follower l ls else follower a ls := by
  induction ls with
  | nil => rfl
  | cons x xs ih =>
    obtain ⟨hx, hd⟩ := List.nodup_cons.mp hd
    by_cases hxl : x = l
    · subst hxl
      have hne : follower a xs ≠ some x := fun h => hx (mem_of_follower h)
      simp [follower, Ne.symm hal, hne]
    · rw [List.erase_cons_tail (by simpa using hxl)]
      by_cases hxa : x = a
      · subst hxa
        cases xs with
        | nil => simp [follower]
        | cons y ys =>
          by_cases hyl : y = l
          · simp [follower, hyl, hal]
          · simp [follower, hyl]
      · simp [follower, hxa, hxl, ih hd]

/-! ### Lists in the same order -/

/-- What two lists share stands in the same order in both. -/
def SameOrder (xs ys : List Label) : Prop := xs.filter (· ∈ ys) = ys.filter (· ∈ xs)

/-- A part of a list, in the order of the list. -/
theorem filter_mem_of_sublist {xs ys : List Label} (h : xs.Sublist ys) (hd : ys.Nodup) :
    ys.filter (· ∈ xs) = xs := by
  induction h with
  | slnil => rfl
  | @cons xs ys y h ih =>
    obtain ⟨hy, hd⟩ := List.nodup_cons.mp hd
    have hnot : y ∉ xs := fun hx => hy (h.subset hx)
    rw [List.filter_cons, if_neg (by simpa using hnot), ih hd]
  | @cons_cons xs ys y h ih =>
    obtain ⟨hy, hd⟩ := List.nodup_cons.mp hd
    have hrest : ys.filter (· ∈ y :: xs) = ys.filter (· ∈ xs) := by
      refine List.filter_congr fun x hx => ?_
      have hne : x ≠ y := fun he => hy (he ▸ hx)
      simp [hne]
    rw [List.filter_cons, if_pos (by simp), hrest, ih hd]

namespace SameOrder

variable {xs ys zs : List Label}

theorem refl (xs : List Label) : SameOrder xs xs := rfl

theorem symm (h : SameOrder xs ys) : SameOrder ys xs := Eq.symm h

theorem of_sublist (h : xs.Sublist ys) (hd : ys.Nodup) : SameOrder xs ys := by
  have hall : xs.filter (· ∈ ys) = xs :=
    List.filter_eq_self.mpr fun x hx => decide_eq_true (h.subset hx)
  rw [SameOrder, hall, filter_mem_of_sublist h hd]

/-- The list in between has to hold what the outer ones share. -/
theorem trans (h : SameOrder xs ys) (h' : SameOrder ys zs) (hmem : ∀ x ∈ xs, x ∈ zs → x ∈ ys) :
    SameOrder xs zs := by
  have hx : xs.filter (· ∈ zs) = (xs.filter (· ∈ ys)).filter (· ∈ zs) := by
    rw [List.filter_filter]
    refine List.filter_congr fun x hx => ?_
    by_cases hz : x ∈ zs <;> simp [hz, hmem x hx]
  have hz : zs.filter (· ∈ xs) = (zs.filter (· ∈ ys)).filter (· ∈ xs) := by
    rw [List.filter_filter]
    refine List.filter_congr fun x hz => ?_
    by_cases hx : x ∈ xs <;> simp [hx, hmem x, hz]
  calc xs.filter (· ∈ zs)
      = (ys.filter (· ∈ xs)).filter (· ∈ zs) := by rw [hx, h]
    _ = (ys.filter (· ∈ zs)).filter (· ∈ xs) := List.filter_comm ..
    _ = zs.filter (· ∈ xs) := by rw [hz, h']

end SameOrder

namespace Chain

theorem after?_eq_follower (c : Chain) (l : Label) : c.after? l = follower l c.labels :=
  (follower_eq l c.labels).symm

/-- The position of a label is the only one it stands at. -/
theorem position?_eq_some_iff {c : Chain} (hd : c.labels.Nodup) {l : Label} {i : Nat} :
    c.position? l = some i ↔ c.labels[i]? = some l := by
  rw [position?, List.idxOf?_eq_some_iff]
  constructor
  · rintro ⟨hi, hl, -⟩
    rw [List.getElem?_eq_getElem hi, hl]
  · intro h
    obtain ⟨hi, hl⟩ := List.getElem?_eq_some_iff.mp h
    refine ⟨hi, hl, fun j hj he => ?_⟩
    have hij : j = i := (List.Nodup.getElem_inj_iff hd).mp (he.trans hl.symm)
    omega

theorem after?_eq_some_iff {c : Chain} (hd : c.labels.Nodup) {a b : Label} :
    c.after? a = some b ↔ ∃ i, c.labels[i]? = some a ∧ c.labels[i + 1]? = some b := by
  simp only [after?, Option.bind_eq_some_iff, position?_eq_some_iff hd]

theorem before?_eq_some_iff {c : Chain} (hd : c.labels.Nodup) {a b : Label} :
    c.before? b = some a ↔ ∃ i, c.labels[i]? = some a ∧ c.labels[i + 1]? = some b := by
  unfold before?
  constructor
  · intro h
    split at h
    · next i hi => exact ⟨i, h, (position?_eq_some_iff hd).mp hi⟩
    · cases h
  · rintro ⟨i, ha, hb⟩
    rw [(position?_eq_some_iff hd).mpr hb]
    exact ha

theorem before?_eq_some_iff_after? {c : Chain} (hd : c.labels.Nodup) {a b : Label} :
    c.before? b = some a ↔ c.after? a = some b := by
  rw [before?_eq_some_iff hd, after?_eq_some_iff hd]

/-- Taking out the label at the position of `l` is taking out `l`. -/
theorem eraseIdx_position? {c : Chain} {l : Label} {i : Nat} (h : c.position? l = some i) :
    c.labels.eraseIdx i = c.labels.erase l := by
  have hi : c.labels.idxOf? l = some i := h
  rw [List.erase_eq_eraseIdx, hi]

end Chain

end LinearSSA
