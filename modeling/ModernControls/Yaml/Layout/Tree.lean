import ModernControls.Yaml.Base64
import ModernControls.Yaml.Layout.Scalar
import ModernControls.Yaml.Tree

/-!
# Trees as text

The YAML text of a tree: one item or entry on a line, lists and maps two columns to the right of
what they belong to, empty ones as brackets. A key that does not fit on its line is marked by a
question mark.

Results:
- `proper_weaken`: a tree that holds nothing foreign and no long integer is taken as it is;
- `toText_weaken`: such a tree has a text.
-/

namespace ModernControls.Yaml

/-- Why a tree has no text: it holds a foreign value, or an integer that is too long. -/
inductive Unwritable (α : Type)
  | foreign (value : α)
  | longInteger (value : Int)
  deriving DecidableEq, Repr

namespace Tree

variable {α : Type}

mutual

/-- Whether no integer in a tree is too long to be written. -/
def isShort : Tree α → Bool
  | .int n => !isLongInteger n
  | .list items => areShort items
  | .tuple items => areShort items
  | .set items => areShort items
  | .map entries => areShortEntries entries
  | _ => true

/-- Whether no integer in items is too long to be written. -/
def areShort : List (Tree α) → Bool
  | [] => true
  | item :: rest => isShort item && areShort rest

/-- Whether no integer in entries is too long to be written. -/
def areShortEntries : List (Tree α × Tree α) → Bool
  | [] => true
  | (key, value) :: rest => isShort key && isShort value && areShortEntries rest

end

mutual

/-- A tree that can be written, or the first value of it that cannot. -/
def proper : Tree α → Except (Unwritable α) (Tree Empty)
  | .null => .ok .null
  | .bool b => .ok (.bool b)
  | .int n => if isLongInteger n then .error (.longInteger n) else .ok (.int n)
  | .float x => .ok (.float x)
  | .text t form => .ok (.text t form)
  | .bytes b => .ok (.bytes b)
  | .moment m => .ok (.moment m)
  | .list items => (properItems items).map .list
  | .tuple items => (properItems items).map .tuple
  | .set items => (properItems items).map .set
  | .map entries => (properEntries entries).map .map
  | .foreign value => .error (.foreign value)

/-- Items that can be written. -/
def properItems : List (Tree α) → Except (Unwritable α) (List (Tree Empty))
  | [] => .ok []
  | item :: rest => do
    let item ← proper item
    let rest ← properItems rest
    .ok (item :: rest)

/-- Entries that can be written. -/
def properEntries :
    List (Tree α × Tree α) → Except (Unwritable α) (List (Tree Empty × Tree Empty))
  | [] => .ok []
  | (key, value) :: rest => do
    let key ← proper key
    let value ← proper value
    let rest ← properEntries rest
    .ok ((key, value) :: rest)

end

end Tree

namespace Layout

/-- The names of the numbers that are not finite. -/
def specials : Binary64.Specials := ⟨".nan".toList, ".inf".toList, "-.inf".toList⟩

/-- A number with a point before its exponent. -/
def withPoint (text : Text) : Text :=
  match Text.cut 'e' text with
  | (digits, some exponent) =>
    if digits.contains '.' then text else digits ++ '.' :: '0' :: 'e' :: exponent
  | _ => text

/-- The leaf for a tree that is a scalar.
mirrors the representers of the YAML library and dialect.structural 92-107 -/
def leaf? : Tree Empty → Option Leaf
  | .null => some ⟨.null, [], none⟩
  | .bool b => some ⟨.bool, if b then "true".toList else "false".toList, none⟩
  | .int n => some ⟨.int, Text.ofInt n, none⟩
  | .float x => some ⟨.float, withPoint (x.text specials), none⟩
  | .text t form => some ⟨.str, t, match form with
    | .forced style => some style
    | _ => none⟩
  | .bytes b => some ⟨.binary, Base64.encodeLines b.length b, some .literal⟩
  | .moment m => some ⟨.timestamp, m.text [' '], none⟩
  | _ => none

/-- The columns between something and what belongs to it.
mirrors the options in `render_tree` (dialect.structural 132) -/
def step : Nat := 2

/-- Where a node is written: at the start of the text, after the mark of an item or a marked key
or value, or after a key on the same line. -/
inductive Place
  | start
  | item
  | value
  deriving DecidableEq, Repr

/-- What stands before a node on its line. -/
def Place.gap : Place → Text
  | .start => []
  | _ => [' ']

/-- What stands before the first of several lines at an indentation. -/
def Place.lead (indent : Nat) : Place → Text
  | .start => []
  | .item => [' ']
  | .value => '\n' :: Text.spaces indent

/-- The indentation of the further lines of a scalar. -/
def Place.scalarIndent (indent : Nat) : Place → Nat
  | .start => step
  | _ => indent

/-- The text of a key on one line, if it can be one. -/
def key? : Tree Empty → Option Text
  | .list [] => some ['[', ']']
  | .tuple [] => some ['[', ']']
  | .map [] => some ['\x7b', '\x7d']
  | key => (leaf? key).bind Leaf.key?

mutual

/-- A node, up to the end of its last line.
mirrors `expect_node` of the YAML library -/
def node (place : Place) (indent : Nat) : Tree Empty → Text
  | .list [] => place.gap ++ "[]\n".toList
  | .tuple [] => place.gap ++ "[]\n".toList
  | .map [] => place.gap ++ ['\x7b', '\x7d', '\n']
  | .set [] => place.gap ++ "!!set ".toList ++ ['\x7b', '\x7d', '\n']
  | .list items => lines (place.lead indent) indent items
  | .tuple items => lines (place.lead indent) indent items
  | .map entries => entryLines (place.lead indent) indent entries
  | .set items => place.gap ++ "!!set\n".toList ++ setLines indent items
  | tree => match leaf? tree with
    | some leaf => leaf.write place.gap (place.scalarIndent indent)
    | none => []

/-- Items of a list, the first after a lead. -/
def lines (lead : Text) (indent : Nat) : List (Tree Empty) → Text
  | [] => []
  | item :: rest =>
    lead ++ '-' :: node .item (indent + step) item ++ lines (Text.spaces indent) indent rest

/-- Entries of a map, the first after a lead. -/
def entryLines (lead : Text) (indent : Nat) : List (Tree Empty × Tree Empty) → Text
  | [] => []
  | (key, value) :: rest =>
    lead ++ (match key? key with
      | some text => text ++ ':' :: node .value (indent + step) value
      | none => '?' :: node .item (indent + step) key
        ++ Text.spaces indent ++ ':' :: node .item (indent + step) value)
      ++ entryLines (Text.spaces indent) indent rest

/-- Members of a set. -/
def setLines (indent : Nat) : List (Tree Empty) → Text
  | [] => []
  | key :: rest =>
    Text.spaces indent ++ (match key? key with
      | some text => text ++ [':', '\n']
      | none => '?' :: node .item (indent + step) key ++ Text.spaces indent ++ [':', '\n'])
      ++ setLines indent rest

end

mutual

/-- Whether the last thing in a tree is a block that keeps the breaks at its end. -/
def keepsBreaks : Tree Empty → Bool
  | .list items => lastKeepsBreaks items
  | .tuple items => lastKeepsBreaks items
  | .map entries => lastValueKeepsBreaks entries
  | .set _ => false
  | tree => match leaf? tree with
    | some leaf => leaf.keepsBreaks
    | none => false

/-- Whether the last item ends in a block that keeps the breaks at its end. -/
def lastKeepsBreaks : List (Tree Empty) → Bool
  | [] => false
  | [item] => keepsBreaks item
  | _ :: rest => lastKeepsBreaks rest

/-- Whether the last value ends in a block that keeps the breaks at its end. -/
def lastValueKeepsBreaks : List (Tree Empty × Tree Empty) → Bool
  | [] => false
  | [(_, value)] => keepsBreaks value
  | _ :: rest => lastValueKeepsBreaks rest

end

/-- Whether a text must tell where it ends: after a plain scalar that is all of it, and after
breaks that are kept. -/
def needsEnd (tree : Tree Empty) : Bool :=
  keepsBreaks tree || match leaf? tree with
    | some leaf => leaf.style false = .plain
    | none => false

/-- The text of a tree that can be written. -/
def render (tree : Tree Empty) : Text :=
  node .start 0 tree ++ if needsEnd tree then "...\n".toList else []

end Layout

namespace Tree

variable {α : Type}

/-- The text of a tree, or the first value of it that has none.
mirrors `render_tree` (dialect.structural 122-139) -/
def toText (tree : Tree α) : Except (Unwritable α) Text := tree.proper.map Layout.render

/-- A tree that holds nothing foreign as one that might. -/
def weaken (tree : Tree Empty) : Tree α := tree.substitute nofun

mutual

theorem proper_weaken : ∀ tree : Tree Empty, tree.isShort = true →
    proper (weaken tree : Tree α) = .ok tree
  | .null, _ => rfl
  | .bool _, _ => rfl
  | .int n, h => by simp_all [isShort, weaken, substitute, proper]
  | .float _, _ => rfl
  | .text .., _ => rfl
  | .bytes _, _ => rfl
  | .moment _, _ => rfl
  | .list items, h => by
    simp [weaken, substitute, proper, properItems_weaken items h, Except.map]
  | .tuple items, h => by
    simp [weaken, substitute, proper, properItems_weaken items h, Except.map]
  | .set items, h => by
    simp [weaken, substitute, proper, properItems_weaken items h, Except.map]
  | .map entries, h => by
    simp [weaken, substitute, proper, properEntries_weaken entries h, Except.map]
  | .foreign value, _ => nomatch value

theorem properItems_weaken : ∀ items : List (Tree Empty), areShort items = true →
    properItems (substituteItems nofun items : List (Tree α)) = .ok items
  | [], _ => rfl
  | item :: rest, h => by
    rw [areShort, Bool.and_eq_true] at h
    have hi : proper (item.substitute nofun : Tree α) = .ok item := proper_weaken item h.1
    simp [substituteItems, properItems, hi, properItems_weaken rest h.2, bind, Except.bind]

theorem properEntries_weaken : ∀ entries : List (Tree Empty × Tree Empty),
    areShortEntries entries = true →
    properEntries (substituteEntries nofun entries : List (Tree α × Tree α)) = .ok entries
  | [], _ => rfl
  | (key, value) :: rest, h => by
    rw [areShortEntries, Bool.and_eq_true, Bool.and_eq_true] at h
    have hk : proper (key.substitute nofun : Tree α) = .ok key := proper_weaken key h.1.1
    have hv : proper (value.substitute nofun : Tree α) = .ok value := proper_weaken value h.1.2
    simp [substituteEntries, properEntries, hk, hv, properEntries_weaken rest h.2, bind,
      Except.bind]

end

theorem toText_weaken {tree : Tree Empty} (h : tree.isShort = true) :
    toText (weaken tree : Tree α) = .ok (Layout.render tree) := by
  simp [toText, proper_weaken tree h, Except.map]

end Tree

end ModernControls.Yaml
