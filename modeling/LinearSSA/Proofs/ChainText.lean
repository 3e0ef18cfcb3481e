import LinearSSA.Chain.Basic
import LinearSSA.Proofs.Readable
import Std.Data.String.ToInt

/-! The text of a chain determines its lines. Operands and labels are readable before whatever
is not part of a word, right-hand sides and statements before the end of their line. No part of
a statement can be taken for another: a string constant ends at its own closing quote whatever
it holds, and a minus sign belongs to a constant unless it has a space on either side. -/

namespace LinearSSA

open Text

theorem toString_string (s : String) : toString s = s := rfl

/-! ### Numbers -/

/-- The characters of a number. -/
def isNumeral (c : Char) : Bool := c.isDigit || c = '-'

/-- The characters of labels, locals and constants other than strings. -/
def isWordChar (c : Char) : Bool := c.isAlphanum || c = '-'

@[simp] theorem isWordChar_space : isWordChar ' ' = false := rfl

@[simp] theorem isWordChar_colon : isWordChar ':' = false := rfl

theorem isWordChar_of_isNumeral {c : Char} (h : isNumeral c) : isWordChar c := by
  simp only [isNumeral, isWordChar, Char.isAlphanum, Bool.or_eq_true] at h ⊢
  exact h.imp_left .inr

theorem Text.Starts.not_isNumeral {k : List Char} (hk : Starts (¬ isWordChar ·) k) :
    Starts (¬ isNumeral ·) k :=
  hk.mono fun _ => mt isWordChar_of_isNumeral

theorem isNumeral_of_mem_repr {n : Nat} {c : Char} (h : c ∈ n.repr.toList) : isNumeral c := by
  rw [Nat.toList_repr] at h
  simp [isNumeral, Nat.isDigit_of_mem_toDigits (by decide) (by decide) h]

theorem isNumeral_of_mem_repr_int {i : Int} {c : Char} (h : c ∈ i.repr.toList) :
    isNumeral c := by
  rw [Int.repr_eq_if] at h
  split at h
  · exact isNumeral_of_mem_repr h
  · rw [String.toList_append, List.mem_append] at h
    rcases h with h | h
    · simp_all [isNumeral]
    · exact isNumeral_of_mem_repr h

theorem exists_numeral (i : Int) : ∃ c w, i.repr.toList = c :: w ∧ isNumeral c := by
  have hne : i.repr.toList ≠ [] := by
    rw [Int.repr_eq_if]
    split <;> simp [Nat.toDigits_ne_nil]
  obtain ⟨c, w, hw⟩ := List.exists_cons_of_ne_nil hne
  exact ⟨c, w, hw, isNumeral_of_mem_repr_int (hw ▸ List.mem_cons_self)⟩

theorem readable_repr : Readable (fun i : Int => i.repr.toList) (¬ isNumeral ·) :=
  .of_words (fun _ _ h => Int.repr_injective (String.toList_inj.mp h)) fun _ _ =>
    isNumeral_of_mem_repr_int

/-- A number is not a long constant if a word ends there. -/
theorem repr_ne_long {i j : Int} {k k' : List Char} (hk : Starts (¬ isWordChar ·) k) :
    i.repr.toList ++ k ≠ j.repr.toList ++ 'L' :: k' := by
  intro h
  obtain ⟨-, rfl⟩ := readable_repr hk.not_isNumeral (by simp [isNumeral]) h
  simp [isWordChar] at hk

/-- Numbers behind a letter are readable before what is not part of a word. -/
theorem readable_numbered {α : Type} {letter : String} {number : α → Nat}
    (hletter : letter.toList.all isWordChar) (hinj : Function.Injective number) :
    Readable (fun a => (letter ++ (number a).repr).toList) (¬ isWordChar ·) := by
  refine .of_words (fun a b h => ?_) fun a c hc => ?_
  · simp only [String.toList_append] at h
    exact hinj (Nat.repr_injective (String.toList_inj.mp (List.append_cancel_left h)))
  · rw [String.toList_append, List.mem_append] at hc
    rcases hc with hc | hc
    · exact List.all_eq_true.mp hletter c hc
    · exact isWordChar_of_isNumeral (isNumeral_of_mem_repr hc)

theorem Local.readable_text : Readable (fun x : Local => x.text.toList) (¬ isWordChar ·) :=
  readable_numbered (by decide) fun ⟨_⟩ ⟨_⟩ h => congrArg Local.mk (UInt64.toNat_inj.mp h)

theorem Label.readable_text : Readable (fun l : Label => l.text.toList) (¬ isWordChar ·) :=
  readable_numbered (by decide) fun _ _ h => Label.ext h

/-! ### Operands -/

namespace Operand

/-- The kinds of operands that their first characters tell apart. -/
inductive Kind where
  | var | null | number | str

def kind : Operand → Kind
  | .var _ => .var
  | .const .null => .null
  | .const (.int _) | .const (.long _) => .number
  | .const (.str _) => .str

/-- The kind of the operands that begin with a character. -/
def kindOf (c : Char) : Option Kind :=
  if c = 'l' then some .var
  else if c = 'n' then some .null
  else if c = '"' then some .str
  else if isNumeral c then some .number
  else none

theorem kindOf_of_isNumeral {c : Char} (h : isNumeral c) : kindOf c = some .number := by
  have hl : c ≠ 'l' := by rintro rfl; exact absurd h (by decide)
  have hn : c ≠ 'n' := by rintro rfl; exact absurd h (by decide)
  have hquote : c ≠ '"' := by rintro rfl; exact absurd h (by decide)
  simp [kindOf, hl, hn, hquote, h]

theorem exists_initial (v : Operand) :
    ∃ c w, v.text.toList = c :: w ∧ kindOf c = some v.kind := by
  rcases v with x | (_ | i | i | s)
  · exact ⟨'l', x.index.toNat.repr.toList, by simp [text, Local.text], rfl⟩
  · exact ⟨'n', "ull".toList, by simp [text, Literal.text], rfl⟩
  · obtain ⟨c, w, hw, hc⟩ := exists_numeral i.toInt
    exact ⟨c, w, hw, kindOf_of_isNumeral hc⟩
  · obtain ⟨c, w, hw, hc⟩ := exists_numeral i.toInt
    exact ⟨c, w ++ ['L'], by simp [text, Literal.text, hw], kindOf_of_isNumeral hc⟩
  · exact ⟨'"', escaped s.toList ++ ['"'], by simp [text, Literal.text], rfl⟩

theorem kind_eq_of_append {v w : Operand} {k k' : List Char}
    (h : v.text.toList ++ k = w.text.toList ++ k') : v.kind = w.kind := by
  obtain ⟨c, u, hv, hc⟩ := v.exists_initial
  obtain ⟨d, u', hw, hd⟩ := w.exists_initial
  have hcd : c = d := by simp_all
  exact Option.some.inj (hc.symm.trans (hcd ▸ hd))

theorem readable_text : Readable (fun v : Operand => v.text.toList) (¬ isWordChar ·) := by
  intro v w k k' hk hk' h
  have hkind := kind_eq_of_append h
  rcases v with x | (_ | i | i | s) <;> rcases w with y | (_ | j | j | t) <;>
    simp only [kind, reduceCtorEq] at hkind
  -- only operands of one kind are left
  · obtain ⟨rfl, rfl⟩ := Local.readable_text hk hk' h
    exact ⟨rfl, rfl⟩
  · exact ⟨rfl, List.append_cancel_left h⟩
  · obtain ⟨hij, rfl⟩ := readable_repr hk.not_isNumeral hk'.not_isNumeral h
    rw [Int32.toInt_inj.mp hij]
    exact ⟨rfl, rfl⟩
  -- an int against a long: what follows the digits of the int is not part of a word
  · exact absurd (by simpa [text, Literal.text] using h) (repr_ne_long hk)
  · exact absurd (by simpa [text, Literal.text] using h.symm) (repr_ne_long hk')
  · simp only [text, Literal.text, String.toList_append, List.append_assoc] at h
    obtain ⟨hij, hrest⟩ := readable_repr (by simp [isNumeral]) (by simp [isNumeral]) h
    rw [Int64.toInt_inj.mp hij]
    exact ⟨rfl, List.append_cancel_left hrest⟩
  · obtain ⟨rfl, rfl⟩ := readable_quoted (by simp) (by simp) h
    exact ⟨rfl, rfl⟩

end Operand

/-! ### Right-hand sides -/

theorem Text.Starts.of_newline {k : List Char} (hk : Starts (· = '\n') k) :
    Starts (¬ isWordChar ·) k :=
  hk.mono (by rintro _ rfl; decide)

theorem Operator.readable_symbol :
    Readable (fun o : Operator => o.symbol.toList) (· = ' ') := by
  have hinj : Function.Injective Operator.symbol := fun a b h =>
    Except.ok.inj (by rw [← a.parse_symbol, h, b.parse_symbol])
  have hwords : Readable (fun o : Operator => o.symbol.toList) (¬ · ≠ ' ') :=
    .of_words (fun _ _ h => hinj (String.toList_inj.mp h)) fun o => by cases o <;> simp [symbol]
  exact hwords.mono fun _ => not_not_intro

theorem Phi.Arg.readable_text :
    Readable (fun a : Phi.Arg => a.text.toList) fun c => c = ',' ∨ c = ')' := by
  intro ⟨v, l⟩ ⟨w, m⟩ k k' hk hk' h
  have hword : ∀ c, c = ',' ∨ c = ')' → ¬ isWordChar c := by
    rintro _ (rfl | rfl) <;> decide
  simp only [Phi.Arg.text, toString_string, String.toList_append, List.append_assoc] at h
  obtain ⟨rfl, hrest⟩ := Operand.readable_text (by simp) (by simp) h
  obtain ⟨rfl, rfl⟩ :=
    Label.readable_text (hk.mono hword) (hk'.mono hword) (List.append_cancel_left hrest)
  exact ⟨rfl, rfl⟩

theorem Phi.readable_text : Readable (fun φ : Phi => φ.text.toList) fun _ => True := by
  have hopen : ∀ a : Phi.Arg, a.text.toList ≠ [] ∧ Starts (· ≠ ')') a.text.toList := by
    intro a
    obtain ⟨c, w, hw, hc⟩ := a.value.exists_initial
    have hne : c ≠ ')' := by rintro rfl; cases hc
    simp [Phi.Arg.text, toString_string, hw, hne]
  have hargs := Phi.Arg.readable_text.intercalate (by decide) hopen
  have hclose : ∀ k, Starts (· = ')') (")".toList ++ k) := by simp
  intro ⟨as⟩ ⟨bs⟩ k k' _ _ h
  simp only [Phi.text, String.toList_append, String.toList_intercalate, List.map_map,
    List.append_assoc] at h
  obtain ⟨rfl, hrest⟩ := hargs (hclose k) (hclose k') (List.append_cancel_left h)
  exact ⟨rfl, List.append_cancel_left hrest⟩

namespace Rhs

theorem operand_ne_phi {v : Operand} {φ : Phi} {k k' : List Char} :
    v.text.toList ++ k ≠ φ.text.toList ++ k' := by
  intro h
  obtain ⟨c, w, hw, hc⟩ := v.exists_initial
  have hp : c = 'p' := by simp_all [Phi.text]
  subst hp
  cases hc

theorem copy_ne_binary {v w : Operand} {k k' : List Char} (hk : Starts (· = '\n') k) :
    v.text.toList ++ k ≠ w.text.toList ++ (" ".toList ++ k') := by
  intro h
  obtain ⟨-, rfl⟩ := Operand.readable_text hk.of_newline (by simp) h
  simp at hk

theorem readable_text : Readable (fun r : Rhs => r.text.toList) (· = '\n') := by
  intro r s k k' hk hk' h
  cases r <;> cases s <;>
    simp only [text, toString_string, String.toList_append, List.append_assoc] at h
  case copy.copy v w =>
    obtain ⟨rfl, rfl⟩ := Operand.readable_text hk.of_newline hk'.of_newline h
    exact ⟨rfl, rfl⟩
  case copy.binary => exact absurd h (copy_ne_binary hk)
  case binary.copy => exact absurd h.symm (copy_ne_binary hk')
  case binary.binary op v v' op' w w' =>
    obtain ⟨rfl, h₁⟩ := Operand.readable_text (by simp) (by simp) h
    obtain ⟨rfl, h₂⟩ := Operator.readable_symbol (by simp) (by simp) (List.append_cancel_left h₁)
    obtain ⟨rfl, rfl⟩ := Operand.readable_text hk.of_newline hk'.of_newline
      (List.append_cancel_left h₂)
    exact ⟨rfl, rfl⟩
  case phi.phi φ ψ =>
    obtain ⟨rfl, rfl⟩ := Phi.readable_text (starts_true k) (starts_true k') h
    exact ⟨rfl, rfl⟩
  case copy.phi | binary.phi => exact absurd h operand_ne_phi
  case phi.copy | phi.binary => exact absurd h.symm operand_ne_phi

end Rhs

/-! ### Statements -/

namespace Stmt

/-- The first character of a statement tells what kind of statement it is. -/
def initial : Stmt → Char
  | .nop => 'n'
  | .assign _ _ => 'l'
  | .goto _ => 'g'
  | .branch _ _ => 'i'
  | .switch _ _ _ => 's'
  | .ret _ => 'r'
  | .throw _ => 't'

theorem head?_text (s : Stmt) : s.text.toList.head? = some s.initial := by
  cases s with
  | ret v => cases v <;> simp [text, toString_string, initial]
  | _ => simp [text, toString_string, initial, Local.text]

theorem initial_eq_of_append {s t : Stmt} {k k' : List Char}
    (h : s.text.toList ++ k = t.text.toList ++ k') : s.initial = t.initial := by
  have hhead := congrArg List.head? h
  simpa [List.head?_append, head?_text] using hhead

theorem return_ne {k k' : List Char} (hk : Starts (· = '\n') k) :
    "return".toList ++ k ≠ "return ".toList ++ k' := by
  intro h
  have hspace : k = ' ' :: k' := by simpa using h
  simp [hspace] at hk

theorem readable_text : Readable (fun s : Stmt => s.text.toList) (· = '\n') := by
  have hlabels : Readable (fun ls : List Label => [',', ' '].intercalate (ls.map (·.text.toList)))
      (· = ']') := by
    refine .intercalate (Label.readable_text.mono ?_) (by decide) fun l => ?_
    · rintro _ (rfl | rfl) <;> decide
    · simp [Label.text]
  intro s t k k' hk hk' h
  have hinitial := initial_eq_of_append h
  have hword := hk.of_newline
  have hword' := hk'.of_newline
  cases s <;> cases t <;> simp [initial] at hinitial <;>
    simp only [text, toString_string, String.toList_append, String.toList_intercalate,
      List.map_map, List.append_assoc] at h
  case nop.nop => exact ⟨rfl, List.append_cancel_left h⟩
  case assign.assign x r y s =>
    obtain ⟨rfl, h₁⟩ := Local.readable_text (by simp) (by simp) h
    obtain ⟨rfl, rfl⟩ := Rhs.readable_text hk hk' (List.append_cancel_left h₁)
    exact ⟨rfl, rfl⟩
  case goto.goto l m =>
    obtain ⟨rfl, rfl⟩ := Label.readable_text hword hword' (List.append_cancel_left h)
    exact ⟨rfl, rfl⟩
  case branch.branch v l w m =>
    obtain ⟨rfl, h₁⟩ := Operand.readable_text (by simp) (by simp) (List.append_cancel_left h)
    obtain ⟨rfl, rfl⟩ := Label.readable_text hword hword' (List.append_cancel_left h₁)
    exact ⟨rfl, rfl⟩
  case switch.switch v ls l w ms m =>
    obtain ⟨rfl, h₁⟩ := Operand.readable_text (by simp) (by simp) (List.append_cancel_left h)
    obtain ⟨rfl, h₂⟩ := hlabels (by simp) (by simp) (List.append_cancel_left h₁)
    obtain ⟨rfl, rfl⟩ := Label.readable_text hword hword' (List.append_cancel_left h₂)
    exact ⟨rfl, rfl⟩
  case ret.ret v w =>
    cases v <;> cases w <;>
      simp only [String.toList_append, List.append_assoc] at h
    case none.none => exact ⟨rfl, List.append_cancel_left h⟩
    case none.some => exact absurd h (return_ne hk)
    case some.none => exact absurd h.symm (return_ne hk')
    case some.some v w =>
      obtain ⟨rfl, rfl⟩ := Operand.readable_text hword hword' (List.append_cancel_left h)
      exact ⟨rfl, rfl⟩
  case throw.throw v w =>
    obtain ⟨rfl, rfl⟩ := Operand.readable_text hword hword' (List.append_cancel_left h)
    exact ⟨rfl, rfl⟩

end Stmt

/-! ### Chains -/

theorem Line.readable_text : Readable (fun x : Line => x.text.toList) fun _ => True := by
  intro ⟨l, s⟩ ⟨m, t⟩ k k' _ _ h
  have hend : ∀ k, Starts (· = '\n') ("\n".toList ++ k) := by simp
  simp only [Line.text, toString_string, String.toList_append, List.append_assoc] at h
  obtain ⟨rfl, h₁⟩ := Label.readable_text (by simp) (by simp) h
  obtain ⟨rfl, h₂⟩ := Stmt.readable_text (hend k) (hend k') (List.append_cancel_left h₁)
  exact ⟨rfl, List.append_cancel_left h₂⟩

theorem readable_lines :
    Readable (fun xs : List Line => xs.flatMap (·.text.toList)) fun _ => False :=
  Line.readable_text.flatMap (fun _ => False.elim) fun x => by
    simp [Line.text, Label.text, toString_string]

theorem Chain.toList_text (c : Chain) : c.text.toList = c.lines.flatMap (·.text.toList) := by
  rw [text, String.toList_join, List.flatMap_map]

/-- A statement can be told from its text, and the lines of a chain from the text of the chain. -/
theorem Chain.text_determines_lines :
    (∀ s t : Stmt, s.text = t.text ↔ s = t) ∧
      ∀ c d : Chain, c.text = d.text ↔ c.lines = d.lines := by
  have hstmts := Stmt.readable_text.injective
  have hlines := readable_lines.injective
  refine ⟨fun s t => ⟨fun h => hstmts (congrArg String.toList h), congrArg Stmt.text⟩,
    fun c d => ⟨fun h => hlines ?_, fun h => ?_⟩⟩
  · simp only [← Chain.toList_text, h]
  · rw [Chain.text, h, Chain.text]

/-- A string constant that looks like the statement around it is escaped where it matters. -/
example : (Stmt.assign ⟨0⟩ (.phi ⟨[⟨.const (.str "a\" from s1, \"b"), ⟨2⟩⟩]⟩)).text =
    "l0 = phi(\"a\\\" from s1, \\\"b\" from s2)" := by
  decide +kernel

end LinearSSA
