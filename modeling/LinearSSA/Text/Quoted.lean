import LinearSSA.Text.DefaultIgnorable
import LinearSSA.Text.GraphemeExtend
import LinearSSA.Text.Unprintable

/-! String constants as text. The characters stand between double quotes, each written by
itself: a quote, a backslash and the common controls after a backslash, whatever would not
show as a glyph of its own by its code point, and everything else literally. -/

namespace LinearSSA.Text

/-- The lower-case hexadecimal digits of a code point, without leading zeros. -/
def hexDigits (c : Char) : List Char :=
  Nat.toDigits 16 c.toNat

/-- A character that is written by its code point, because it would not show by itself. -/
def isHidden (c : Char) : Bool :=
  isCombining c || isUnprintable c || isDefaultIgnorable c

/-- The written form of one character between double quotes. -/
def escape (c : Char) : List Char :=
  if c = '"' then ['\\', '"']
  else if c = '\\' then ['\\', '\\']
  else if c = '\n' then ['\\', 'n']
  else if c = '\r' then ['\\', 'r']
  else if c = '\t' then ['\\', 't']
  else if c = '\x00' then ['\\', '0']
  else if isHidden c then '\\' :: 'u' :: '\x7b' :: hexDigits c ++ ['\x7d']
  else [c]

/-- The characters of a string between double quotes. -/
def escaped (s : List Char) : List Char :=
  s.flatMap escape

/-- A string constant, double quotes included. -/
def quoted (s : String) : String :=
  String.ofList ('"' :: escaped s.toList ++ ['"'])

@[simp] theorem escaped_nil : escaped [] = [] := rfl

@[simp] theorem escaped_cons (c : Char) (s : List Char) :
    escaped (c :: s) = escape c ++ escaped s := rfl

@[simp] theorem toList_quoted (s : String) :
    (quoted s).toList = '"' :: escaped s.toList ++ ['"'] := by
  simp [quoted]

end LinearSSA.Text
