import LinearSSA.Fault
import LinearSSA.Named
import LinearSSA.Text.Blank
import Std.Data.ExtTreeMap

/-! Phase options: a set of keys with one value each, listed in the order of the keys. An
option string holds `key:value` tokens between white space and commas; a key by itself means
`key:true`, and a later token overrides an earlier one. -/

namespace LinearSSA

structure Options where
  entries : Std.ExtTreeMap String String
  deriving DecidableEq

namespace Options

def empty : Options := ⟨∅⟩

def isEmpty (o : Options) : Bool := o.entries.isEmpty

def get? (o : Options) (key : String) : Option String := o.entries[key]?

def set (o : Options) (key value : String) : Options := ⟨o.entries.insert key value⟩

/-- Layer `overrides` on top of `o`: where both have a key, the value of `overrides` counts. -/
def merged (o overrides : Options) : Options := ⟨o.entries ∪ overrides.entries⟩

/-- The keys in ascending order, each with its value. -/
def toList (o : Options) : List (String × String) := o.entries.toList

/-- Later entries override earlier ones. -/
def ofList (es : List (String × String)) : Options :=
  es.foldl (fun o (key, value) => o.set key value) empty

/-- The truth value under `key`, or `default` if the key is not set. -/
def getBool (o : Options) (key : String) (default : Bool) : Except Fault Bool :=
  match o.get? key with
  | none => .ok default
  | some value =>
    if value = "true" then .ok true
    else if value = "false" then .ok false
    else .error (.invalidOption s!"{key}:{value}")

/-! ### Option strings -/

def isSeparator (c : Char) : Bool := Text.isBlank c || c = ','

/-- The maximal runs of characters between separators. -/
def tokens (s : List Char) : List (List Char) :=
  (s.splitOnP isSeparator).filter (!·.isEmpty)

/-- The parts of a token before and after its first colon, if it has one. -/
def splitColon? (t : List Char) : Option (List Char × List Char) :=
  match t.dropWhile (· ≠ ':') with
  | [] => none
  | _ :: value => some (t.takeWhile (· ≠ ':'), value)

/-- The key and the value that a token is written for. -/
def keyValue (t : List Char) : List Char × List Char :=
  match splitColon? t with
  | some (key, value) => (Text.trim key, Text.trim value)
  | none => (t, "true".toList)

/-- Read a token; neither the key nor the value may be empty. -/
def entry (t : List Char) : Except Fault (String × String) :=
  let (key, value) := keyValue t
  if key.isEmpty || value.isEmpty then .error (.invalidOption (String.ofList t))
  else .ok (String.ofList key, String.ofList value)

/-- Read an option string; its first malformed token counts. -/
def parse (s : String) : Except Fault Options :=
  ((tokens s.toList).mapM entry).map ofList

/-! ### Lookup -/

theorem ext_get? {o p : Options} (h : ∀ key, o.get? key = p.get? key) : o = p := by
  cases o; cases p
  exact congrArg mk (Std.ExtTreeMap.ext_getElem? h)

@[simp] theorem get?_empty (key : String) : empty.get? key = none := by
  simp [empty, get?]

@[simp] theorem get?_set (o : Options) (k key value : String) :
    (o.set k value).get? key = if k = key then some value else o.get? key := by
  simp [set, get?, Std.ExtTreeMap.getElem?_insert]

@[simp] theorem get?_merged (o overrides : Options) (key : String) :
    (o.merged overrides).get? key = (overrides.get? key).or (o.get? key) :=
  Std.ExtTreeMap.getElem?_union

end Options

end LinearSSA
