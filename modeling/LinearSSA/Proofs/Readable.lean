import LinearSSA.Text.Quoted
import Mathlib.Logic.Function.Basic
import Mathlib.Tactic.SplitIfs

/-! Writings that can be read back. A writing gives each value a list of characters; it is
readable before certain characters if a value and the text after it can be told from the whole
text, as long as the text after it is over or goes on with one of these characters. Words are
readable before whatever is not part of a word, sequences before whatever none of their items
begins with, and the characters of a string constant before its closing quote, whichever of the
forms between double quotes each of them has. -/

namespace LinearSSA.Text

variable {α : Type} {write : α → List Char} {p q : Char → Prop}

/-- The text is over or goes on with a character that satisfies `p`. -/
def Starts (p : Char → Prop) (k : List Char) : Prop := ∀ c ∈ k.head?, p c

@[simp] theorem starts_nil (p : Char → Prop) : Starts p [] := by
  simp [Starts]

@[simp] theorem starts_cons {c : Char} {k : List Char} : Starts p (c :: k) ↔ p c := by
  simp [Starts]

@[simp] theorem starts_true (k : List Char) : Starts (fun _ => True) k := fun _ _ => trivial

theorem Starts.mono {k : List Char} (hk : Starts p k) (h : ∀ c, p c → q c) : Starts q k :=
  fun c hc => h c (hk c hc)

theorem Starts.append {u k : List Char} (hu : Starts p u) (hk : Starts p k) :
    Starts p (u ++ k) := by
  cases u with
  | nil => exact hk
  | cons c u => simpa using hu

theorem Starts.flatMap {k : List Char} (as : List α) (h : ∀ a, Starts p (write a))
    (hk : Starts p k) : Starts p (as.flatMap write ++ k) := by
  induction as with
  | nil => exact hk
  | cons a as ih =>
    rw [List.flatMap_cons, List.append_assoc]
    exact (h a).append ih

theorem Starts.ne_append {u k k' : List Char} (hk : Starts p k) (hu : Starts (¬ p ·) u)
    (hne : u ≠ []) : k ≠ u ++ k' := by
  rintro rfl
  cases u with
  | nil => exact hne rfl
  | cons c u => exact starts_cons.mp hu (starts_cons.mp hk)

/-- What is written before a character that satisfies `p` is determined by the text, and so is
where it ends. -/
def Readable (write : α → List Char) (p : Char → Prop) : Prop :=
  ∀ ⦃a b : α⦄ ⦃k k' : List Char⦄, Starts p k → Starts p k' →
    write a ++ k = write b ++ k' → a = b ∧ k = k'

theorem Readable.injective (hr : Readable write p) : Function.Injective write := fun _ _ h =>
  (hr (starts_nil p) (starts_nil p) (congrArg (· ++ []) h)).1

theorem Readable.mono (hr : Readable write q) (h : ∀ c, p c → q c) : Readable write p :=
  fun _ _ _ _ hk hk' => hr (hk.mono h) (hk'.mono h)

/-! ### Words -/

/-- A word is as long as it can be. -/
theorem append_word_inj {u v k k' : List Char} (hu : ∀ c ∈ u, p c) (hv : ∀ c ∈ v, p c)
    (hk : Starts (¬ p ·) k) (hk' : Starts (¬ p ·) k') (h : u ++ k = v ++ k') :
    u = v ∧ k = k' := by
  induction u generalizing v with
  | nil =>
    cases v with
    | nil => exact ⟨rfl, h⟩
    | cons d v => exact absurd h (hk.ne_append (by simpa using hv d) (by simp))
  | cons c u ih =>
    cases v with
    | nil => exact absurd h.symm (hk'.ne_append (by simpa using hu c) (by simp))
    | cons d v =>
      obtain ⟨rfl, hrest⟩ := List.cons.inj h
      rw [List.forall_mem_cons] at hu hv
      obtain ⟨rfl, rfl⟩ := ih hu.2 hv.2 hrest
      exact ⟨rfl, rfl⟩

theorem Readable.of_words (hinj : Function.Injective write) (hw : ∀ a, ∀ c ∈ write a, p c) :
    Readable write (¬ p ·) := by
  intro a b k k' hk hk' h
  obtain ⟨hab, hrest⟩ := append_word_inj (hw a) (hw b) hk hk' h
  exact ⟨hinj hab, hrest⟩

/-! ### Sequences -/

/-- Items one after the other are readable before what no item begins with. -/
theorem Readable.flatMap (hr : Readable write q) (hpq : ∀ c, p c → q c)
    (hopen : ∀ a, write a ≠ [] ∧ Starts (fun c => q c ∧ ¬ p c) (write a)) :
    Readable (fun as : List α => as.flatMap write) p := by
  have hq : ∀ a, Starts q (write a) := fun a => (hopen a).2.mono fun _ hc => hc.1
  have hp : ∀ a, Starts (¬ p ·) (write a) := fun a => (hopen a).2.mono fun _ hc => hc.2
  intro as bs k k' hk hk' h
  induction as generalizing bs with
  | nil =>
    cases bs with
    | nil => exact ⟨rfl, h⟩
    | cons b bs =>
      simp only [List.flatMap_nil, List.nil_append, List.flatMap_cons, List.append_assoc] at h
      exact absurd h (hk.ne_append (hp b) (hopen b).1)
  | cons a as ih =>
    cases bs with
    | nil =>
      simp only [List.flatMap_nil, List.nil_append, List.flatMap_cons, List.append_assoc] at h
      exact absurd h.symm (hk'.ne_append (hp a) (hopen a).1)
    | cons b bs =>
      simp only [List.flatMap_cons, List.append_assoc] at h ih
      obtain ⟨rfl, hrest⟩ := hr (.flatMap as hq (hk.mono hpq)) (.flatMap bs hq (hk'.mono hpq)) h
      obtain ⟨rfl, rfl⟩ := ih hrest
      exact ⟨rfl, rfl⟩

/-- The items of a list after its first one, each behind a separator. -/
def further (write : α → List Char) (as : List α) : List Char :=
  as.flatMap fun a => ',' :: ' ' :: write a

theorem intercalate_cons (write : α → List Char) (a : α) (as : List α) :
    [',', ' '].intercalate ((a :: as).map write) = write a ++ further write as := by
  induction as generalizing a with
  | nil => simp [further]
  | cons b as ih =>
    rw [List.map_cons, List.map_cons, List.intercalate_cons_cons, ← List.map_cons, ih]
    simp [further]

/-- A list with commas between its items is readable before a character that closes it. -/
theorem Readable.intercalate {close : Char} (hr : Readable write fun c => c = ',' ∨ c = close)
    (hclose : close ≠ ',') (hopen : ∀ a, write a ≠ [] ∧ Starts (· ≠ close) (write a)) :
    Readable (fun as : List α => [',', ' '].intercalate (as.map write)) (· = close) := by
  have hitem : Readable (fun a => ',' :: ' ' :: write a) fun c => c = ',' ∨ c = close :=
    fun a b k k' hk hk' h => hr hk hk' (by simpa using h)
  have hfurther : Readable (further write) (· = close) :=
    hitem.flatMap (fun _ => .inr) fun a => by simpa using hclose.symm
  intro as bs k k' hk hk' h
  cases as with
  | nil =>
    cases bs with
    | nil => exact ⟨rfl, h⟩
    | cons b bs =>
      simp only [intercalate_cons, List.append_assoc] at h
      exact absurd h (hk.ne_append (hopen b).2 (hopen b).1)
  | cons a as =>
    cases bs with
    | nil =>
      simp only [intercalate_cons, List.append_assoc] at h
      exact absurd h.symm (hk'.ne_append (hopen a).2 (hopen a).1)
    | cons b bs =>
      simp only [intercalate_cons, List.append_assoc] at h
      exact hfurther hk hk' (by simpa [further] using h)

/-! ### Hexadecimal digits -/

theorem digitChar_inj : ∀ m < 16, ∀ n < 16, Nat.digitChar m = Nat.digitChar n → m = n := by
  decide

theorem toDigits_sixteen (n : Nat) : Nat.toDigits 16 n =
    (if n < 16 then [] else Nat.toDigits 16 (n / 16)) ++ [Nat.digitChar (n % 16)] := by
  rw [Nat.toDigits_eq_if (by decide)]
  split
  · next h => simp [Nat.mod_eq_of_lt h]
  · rfl

theorem toDigits_sixteen_injective : Function.Injective (Nat.toDigits 16) := by
  intro m
  induction m using Nat.strongRecOn with
  | _ m ih =>
    intro n h
    rw [toDigits_sixteen m, toDigits_sixteen n] at h
    obtain ⟨hrest, hlast⟩ := List.append_inj' h rfl
    have hmod : m % 16 = n % 16 := digitChar_inj _ (Nat.mod_lt m (by decide)) _
      (Nat.mod_lt n (by decide)) (by simpa using hlast)
    split at hrest <;> split at hrest
    · omega
    · exact absurd hrest.symm Nat.toDigits_ne_nil
    · exact absurd hrest Nat.toDigits_ne_nil
    · have := ih (m / 16) (by omega) hrest
      omega

theorem mem_toDigits_sixteen {c : Char} {n : Nat} (h : c ∈ Nat.toDigits 16 n) :
    ∃ d < 16, c = Nat.digitChar d := by
  induction n using Nat.strongRecOn with
  | _ n ih =>
    rw [toDigits_sixteen] at h
    rcases List.mem_append.mp h with h | h
    · split at h
      · cases h
      · exact ih (n / 16) (by omega) h
    · exact ⟨n % 16, Nat.mod_lt n (by decide), List.mem_singleton.mp h⟩

/-- A code point is readable before the brace after it. -/
theorem readable_hexDigits : Readable hexDigits (· = '\x7d') := by
  have hdigit : ∀ d < 16, Nat.digitChar d ≠ '\x7d' := by decide
  have hwords : Readable hexDigits (¬ · ≠ '\x7d') := by
    refine .of_words (fun c d h => ?_) fun c x hx => ?_
    · exact Char.toNat_inj.mp (toDigits_sixteen_injective h)
    · obtain ⟨d, hd, rfl⟩ := mem_toDigits_sixteen hx
      exact hdigit d hd
  exact hwords.mono fun _ => not_not_intro

/-! ### String constants -/

/-- The characters with a short form, which is a backslash and the second of the pair. -/
def shorthands : List (Char × Char) :=
  [('"', '"'), ('\\', '\\'), ('\n', 'n'), ('\r', 'r'), ('\t', 't'), ('\x00', '0')]

/-- The forms a character can have between double quotes. -/
inductive EscapeForm (c : Char) : List Char → Prop
  | literal (hquote : c ≠ '"') (hslash : c ≠ '\\') : EscapeForm c [c]
  | short (x : Char) (h : (c, x) ∈ shorthands) : EscapeForm c ['\\', x]
  | code : EscapeForm c ('\\' :: 'u' :: '\x7b' :: hexDigits c ++ ['\x7d'])

theorem shorthands_inj : ∀ s ∈ shorthands, ∀ t ∈ shorthands, s.2 = t.2 → s = t := by
  decide

theorem shorthand_ne_code : ∀ s ∈ shorthands, s.2 ≠ 'u' := by
  decide

section EscapeForm

variable {form : Char → List Char} (hform : ∀ c, EscapeForm c (form c))

include hform

/-- No character is written as the beginning of another, whichever form each of them has. -/
theorem readable_form : Readable form fun _ => True := by
  intro c d k k' _ _ h
  have hc := hform c
  have hd := hform d
  generalize form c = u at h hc
  generalize form d = v at h hd
  cases hc with
  | literal _ hslash =>
    cases hd with
    | literal => simpa using h
    | short | code => simp [hslash] at h
  | short x hx =>
    cases hd with
    | literal _ hslash => simp [hslash.symm] at h
    | short y hy =>
      simp only [List.cons_append, List.nil_append, List.cons.injEq, true_and] at h
      obtain ⟨rfl, -⟩ := Prod.mk.inj (shorthands_inj _ hx _ hy h.1)
      exact ⟨rfl, h.2⟩
    | code =>
      simp only [List.cons_append, List.nil_append, List.cons.injEq, true_and] at h
      exact absurd h.1 (shorthand_ne_code _ hx)
  | code =>
    cases hd with
    | literal _ hslash => simp [hslash.symm] at h
    | short y hy =>
      simp only [List.cons_append, List.nil_append, List.cons.injEq, true_and] at h
      exact absurd h.1.symm (shorthand_ne_code _ hy)
    | code =>
      have hbrace : ∀ k, Starts (· = '\x7d') ('\x7d' :: k) := by simp
      obtain ⟨rfl, hrest⟩ := readable_hexDigits (hbrace k) (hbrace k') (by simpa using h)
      exact ⟨rfl, by simpa using hrest⟩

/-- The characters of a string constant are readable before the quote that ends it. -/
theorem readable_forms : Readable (fun s : List Char => s.flatMap form) (· = '"') := by
  refine (readable_form hform).flatMap (fun _ _ => trivial) fun c => ?_
  have hc := hform c
  generalize form c = u at hc
  cases hc with
  | literal hquote => simpa using hquote
  | short x => simp
  | code => simp

/-- A string constant is readable before any text, as its last quote is the first one that no
backslash stands before. -/
theorem readable_between_quotes :
    Readable (fun s : String => '"' :: s.toList.flatMap form ++ ['"']) fun _ => True := by
  intro s t k k' _ _ h
  have hquote : ∀ k, Starts (· = '"') ('"' :: k) := by simp
  obtain ⟨hst, hrest⟩ := readable_forms hform (hquote k) (hquote k') (by simpa using h)
  exact ⟨String.toList_inj.mp hst, by simpa using hrest⟩

end EscapeForm

theorem escape_form (c : Char) : EscapeForm c (escape c) := by
  unfold escape
  split_ifs with hquote hslash hn hr ht h0
  · exact .short '"' (by simp [shorthands, hquote])
  · exact .short '\\' (by simp [shorthands, hslash])
  · exact .short 'n' (by simp [shorthands, hn])
  · exact .short 'r' (by simp [shorthands, hr])
  · exact .short 't' (by simp [shorthands, ht])
  · exact .short '0' (by simp [shorthands, h0])
  · exact .code
  · exact .literal hquote hslash

theorem readable_quoted : Readable (fun s => (quoted s).toList) fun _ => True := by
  simpa only [toList_quoted, escaped] using readable_between_quotes escape_form

end LinearSSA.Text
