import ModernControls.Decimal.Integer
import ModernControls.Decimal.Shortest
import ModernControls.Moment
import ModernControls.Text.Shown
import ModernControls.Yaml.Token

/-!
# Trees of values

What a YAML text says: a tree of scalars, lists and maps. A tree may also hold values that YAML text
cannot hold; of these nothing is known here but their type.

Results:
- `same_iff`: the equality test answers whether two trees are equal, so equality is decidable.
- `substitute_foreign`: a tree with its own foreign values put in is the same tree.
-/

namespace ModernControls.Yaml

/-- How a text came to be or is to be written: as a plain scalar or of no known form, between
quotation marks, or in a given style whatever it holds.
mirrors `QuotedText` and `Styled` (dialect.structural 21-33) -/
inductive TextForm
  | plain
  | quoted
  | forced (style : ScalarStyle)
  deriving DecidableEq, Repr, Inhabited

/-- A tree of values, with values of a type `α` that YAML text cannot hold. -/
inductive Tree (α : Type)
  | null
  | bool (value : Bool)
  | int (value : Int)
  | float (value : Binary64)
  | text (value : Text) (form : TextForm)
  | bytes (value : List Nat)
  | moment (value : Moment)
  | list (items : List (Tree α))
  | tuple (items : List (Tree α))
  | set (items : List (Tree α))
  | map (entries : List (Tree α × Tree α))
  | foreign (value : α)
  deriving Inhabited

namespace Tree

variable {α : Type}

/-! ## Equality -/

section Equality

variable [DecidableEq α]

mutual

/-- Whether two trees are equal. -/
def same : Tree α → Tree α → Bool
  | .null, .null => true
  | .bool a, .bool b => a = b
  | .int a, .int b => a = b
  | .float a, .float b => a = b
  | .text a f, .text b g => a = b && f = g
  | .bytes a, .bytes b => a = b
  | .moment a, .moment b => a = b
  | .list a, .list b => sameItems a b
  | .tuple a, .tuple b => sameItems a b
  | .set a, .set b => sameItems a b
  | .map a, .map b => sameEntries a b
  | .foreign a, .foreign b => a = b
  | _, _ => false

/-- Whether two lists of trees are equal. -/
def sameItems : List (Tree α) → List (Tree α) → Bool
  | [], [] => true
  | a :: as, b :: bs => same a b && sameItems as bs
  | _, _ => false

/-- Whether two lists of entries are equal. -/
def sameEntries : List (Tree α × Tree α) → List (Tree α × Tree α) → Bool
  | [], [] => true
  | (k, a) :: as, (l, b) :: bs => same k l && same a b && sameEntries as bs
  | _, _ => false

end

mutual

theorem same_iff : ∀ a b : Tree α, same a b = true ↔ a = b
  | .null, b => by cases b <;> simp [same]
  | .bool _, b => by cases b <;> simp [same]
  | .int _, b => by cases b <;> simp [same]
  | .float _, b => by cases b <;> simp [same]
  | .text .., b => by cases b <;> simp [same]
  | .bytes _, b => by cases b <;> simp [same]
  | .moment _, b => by cases b <;> simp [same]
  | .list as, b => by cases b <;> simp [same, sameItems_iff as]
  | .tuple as, b => by cases b <;> simp [same, sameItems_iff as]
  | .set as, b => by cases b <;> simp [same, sameItems_iff as]
  | .map as, b => by cases b <;> simp [same, sameEntries_iff as]
  | .foreign _, b => by cases b <;> simp [same]

theorem sameItems_iff : ∀ as bs : List (Tree α), sameItems as bs = true ↔ as = bs
  | [], bs => by cases bs <;> simp [sameItems]
  | a :: as, bs => by cases bs <;> simp [sameItems, same_iff a, sameItems_iff as]

theorem sameEntries_iff : ∀ as bs : List (Tree α × Tree α), sameEntries as bs = true ↔ as = bs
  | [], bs => by cases bs <;> simp [sameEntries]
  | (k, a) :: as, bs => by
    cases bs with
    | nil => simp [sameEntries]
    | cons b bs =>
      obtain ⟨l, b⟩ := b
      simp [sameEntries, same_iff k, same_iff a, sameEntries_iff as]

end

instance : DecidableEq (Tree α) := fun a b => decidable_of_iff _ (same_iff a b)

end Equality

/-! ## Keys -/

/-- Whether a tree can be the key of an entry: lists, sets and maps cannot. -/
def isKey : Tree α → Bool
  | .list _ => false
  | .set _ => false
  | .map _ => false
  | _ => true

/-- The integer that a truth value or an integer is as a key. -/
def integer? : Tree α → Option Int
  | .bool b => some (if b then 1 else 0)
  | .int n => some n
  | _ => none

/-- Whether two keys are the same: numbers by value, truth values as the numbers zero and one,
texts by their characters. What is no number is the same as no key. -/
def sameKey (a b : Tree α) : Bool :=
  match a, b with
  | .null, .null => true
  | .text s _, .text t _ => s = t
  | .bytes s, .bytes t => s = t
  | .moment s, .moment t => s.sameMoment t
  | .float x, .float y => x.sameValue y
  | .float x, b => match b.integer? with
    | some n => x.isInt n
    | none => false
  | a, .float y => match a.integer? with
    | some n => y.isInt n
    | none => false
  | a, b => match a.integer?, b.integer? with
    | some m, some n => m = n
    | _, _ => false

/-- The entries with one more: in the place of the entry with the same key, else at the end. -/
def insertEntry (same : Tree α → Tree α → Bool) (entries : List (Tree α × Tree α))
    (key value : Tree α) : List (Tree α × Tree α) :=
  match entries with
  | [] => [(key, value)]
  | (k, v) :: rest =>
    if same k key then (k, value) :: rest else (k, v) :: insertEntry same rest key value

/-- The map of a list of entries: a key that comes again gets the later value and keeps its
place. -/
def ofEntries (entries : List (Tree α × Tree α)) : Tree α :=
  .map (entries.foldl (fun es e => insertEntry sameKey es e.1 e.2) [])

/-- The value under a text in entries. -/
def lookup (entries : List (Tree α × Tree α)) (key : Text) : Option (Tree α) :=
  match entries with
  | [] => none
  | (.text k _, v) :: rest => if k = key then some v else lookup rest key
  | _ :: rest => lookup rest key

/-! ## Substitution -/

section Substitution

variable {β : Type} (put : α → Tree β)

mutual

/-- A tree with trees put in for the values that YAML text cannot hold. -/
def substitute : Tree α → Tree β
  | .null => .null
  | .bool b => .bool b
  | .int n => .int n
  | .float x => .float x
  | .text t form => .text t form
  | .bytes b => .bytes b
  | .moment m => .moment m
  | .list items => .list (substituteItems items)
  | .tuple items => .tuple (substituteItems items)
  | .set items => .set (substituteItems items)
  | .map entries => .map (substituteEntries entries)
  | .foreign value => put value

/-- The trees of a list with trees put in. -/
def substituteItems : List (Tree α) → List (Tree β)
  | [] => []
  | item :: rest => substitute item :: substituteItems rest

/-- The entries of a map with trees put in. -/
def substituteEntries : List (Tree α × Tree α) → List (Tree β × Tree β)
  | [] => []
  | (key, value) :: rest => (substitute key, substitute value) :: substituteEntries rest

end

end Substitution

mutual

theorem substitute_foreign : ∀ tree : Tree α, tree.substitute .foreign = tree
  | .null => rfl
  | .bool _ => rfl
  | .int _ => rfl
  | .float _ => rfl
  | .text .. => rfl
  | .bytes _ => rfl
  | .moment _ => rfl
  | .list items => by simp [substitute, substituteItems_foreign items]
  | .tuple items => by simp [substitute, substituteItems_foreign items]
  | .set items => by simp [substitute, substituteItems_foreign items]
  | .map entries => by simp [substitute, substituteEntries_foreign entries]
  | .foreign _ => rfl

theorem substituteItems_foreign : ∀ items : List (Tree α), substituteItems .foreign items = items
  | [] => rfl
  | item :: rest => by simp [substituteItems, substitute_foreign item, substituteItems_foreign rest]

theorem substituteEntries_foreign :
    ∀ entries : List (Tree α × Tree α), substituteEntries .foreign entries = entries
  | [] => rfl
  | (key, value) :: rest => by
    simp [substituteEntries, substitute_foreign key, substitute_foreign value,
      substituteEntries_foreign rest]

end

/-! ## Words for values -/

/-- A byte as messages show it. -/
def shownByte (quote : Char) (b : Nat) : Text :=
  let c := Char.ofNat b
  if c = quote ∨ c = '\\' then ['\\', c]
  else if c = '\t' then ['\\', 't']
  else if c = '\n' then ['\\', 'n']
  else if c = '\r' then ['\\', 'r']
  else if 0x20 ≤ b ∧ b < 0x7F then [c]
  else '\\' :: 'x' :: Text.ofHex 2 b

/-- Bytes as messages show them. -/
def shownBytes (bytes : List Nat) : Text :=
  let quote := Text.shownQuote (bytes.map Char.ofNat)
  'b' :: quote :: bytes.flatMap (shownByte quote) ++ [quote]

/-- The word for a truth value in messages. -/
def shownBool (b : Bool) : Text := if b then "True".toList else "False".toList

/-- Whether a value is an integer that is too long to be shown. -/
def isLong : Tree α → Bool
  | .int n => isLongInteger n
  | _ => false

/-- A scalar as the text that a key becomes. -/
def keyText : Tree α → Text
  | .null => "None".toList
  | .bool b => shownBool b
  | .int n => Text.ofInt n
  | .float x => x.text .short
  | .text t _ => t
  | .bytes b => shownBytes b
  | .moment m => m.text [' ']
  | _ => []

/-- The text that a key becomes; there is none if it is an integer that is too long to be
written. -/
def keyText? (tree : Tree α) : Option Text := if tree.isLong then none else some tree.keyText

/-- A scalar as messages show it. -/
def shown : Tree α → Text
  | .text t _ => t.shown
  | .moment m => m.shown
  | tree => tree.keyText

/-- The name of the type of a value in messages. -/
def typeName (nameOf : α → Text) : Tree α → Text
  | .null => "NoneType".toList
  | .bool _ => "bool".toList
  | .int _ => "int".toList
  | .float _ => "float".toList
  | .text .. => "str".toList
  | .bytes _ => "bytes".toList
  | .moment m => if m.time.isSome then "datetime".toList else "date".toList
  | .list _ => "list".toList
  | .tuple _ => "tuple".toList
  | .set _ => "set".toList
  | .map _ => "dict".toList
  | .foreign value => nameOf value

end Tree

end ModernControls.Yaml
