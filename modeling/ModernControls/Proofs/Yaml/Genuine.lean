import ModernControls.Proofs.Decimal.Rounding
import ModernControls.Proofs.Yaml.Making
import ModernControls.Yaml.Tree.OfText

/-!
# Values that are read

Whatever a YAML text holds, its tree has no foreign values, and the numbers in it are numbers of the
binary64 format: each comes from rounding. As this is so of scalars, it is so of all drafts that are
made of them, for whatever reason the making of others is refused.

Results:
- `Number.canonical_fraction`: the fraction of a scalar is a number of the format;
- `Draft.extends_genuine`: making drafts keeps the numbers in them so;
- `Tree.genuine_ofText`: so the tree of a text has such numbers and nothing foreign.
-/
namespace ModernControls

/-! ## Fractions -/

namespace Binary64

theorem canonical_negate {x : Binary64} (h : x.Canonical) : x.negate.Canonical := by
  cases x with
  | finite s m e => exact h
  | _ => trivial

theorem canonical_ofScaled (n e : Int) (zeroNegative : Bool) :
    (ofScaled n e zeroNegative).Canonical := by
  rw [ofScaled]
  split
  · exact canonical_zero _
  · split
    · exact canonical_ofRatio _ _ _
    · exact canonical_ofRatio _ _ _

theorem canonical_add (x y : Binary64) (hx : x.Canonical) : (x.add y).Canonical := by
  cases x with
  | nan => trivial
  | infinite s =>
    cases y with
    | infinite t =>
      rw [add]
      split <;> trivial
    | _ => trivial
  | finite s m e =>
    cases y with
    | finite t n d => exact canonical_ofScaled _ _ _
    | _ => trivial

end Binary64

theorem canonical_fraction? {t : Text} {x : Binary64} (h : fraction? t = some x) :
    x.Canonical := by
  rw [fraction?] at h
  dsimp only at h
  split at h
  · obtain rfl := Option.some.inj h
    trivial
  · split at h
    · obtain rfl := Option.some.inj h
      trivial
    · split at h
      · obtain rfl := Option.some.inj h
        exact Binary64.canonical_ofDecimal _ _ _
      · cases h

namespace Yaml

namespace Number

theorem canonical_orBreak {o : Option Binary64} {x : Binary64} (ho : ∀ y ∈ o, y.Canonical)
    (h : orBreak o = .ok x) : x.Canonical := by
  cases o with
  | none => cases h
  | some y =>
    obtain rfl := Except.ok.inj h
    exact ho y rfl

theorem canonical_fractionOfSixties {parts : List Text} {base : Int} {sum x : Binary64}
    (hs : sum.Canonical) (h : fractionOfSixties base sum parts = .ok x) : x.Canonical := by
  induction parts generalizing base sum with
  | nil =>
    obtain rfl := Except.ok.inj h
    exact hs
  | cons part rest ih =>
    rw [fractionOfSixties] at h
    cases hp : orBreak (fraction? part) with
    | error b =>
      rw [hp] at h
      cases h
    | ok y =>
      rw [hp] at h
      simp only [bind, Except.bind] at h
      split at h
      · exact ih (Binary64.canonical_add _ _ hs) h
      · cases h

theorem canonical_unsignedFraction {t : Text} {x : Binary64} (h : unsignedFraction t = .ok x) :
    x.Canonical := by
  rw [unsignedFraction] at h
  split at h
  · obtain rfl := Except.ok.inj h
    trivial
  · split at h
    · obtain rfl := Except.ok.inj h
      trivial
    · split at h
      · dsimp only at h
        cases hm : (sixtieths t).mapM fun part => orBreak (fraction? part) with
        | error b =>
          simp only [bind, Except.bind, hm] at h
          cases h
        | ok numbers =>
          simp only [bind, Except.bind, hm] at h
          split at h
          · cases h
          · exact canonical_fractionOfSixties (Binary64.canonical_zero false) h
      · exact canonical_orBreak (fun y hy => canonical_fraction? hy) h

/-- The fraction of a scalar is a number of the format. -/
theorem canonical_fraction {t : Text} {x : Binary64} (h : fraction t = .ok x) : x.Canonical := by
  rw [fraction] at h
  dsimp only at h
  split at h
  · cases h
  · cases hu : unsignedFraction (takeSign (withoutLines t).lowered).2 with
    | error b =>
      simp only [bind, Except.bind, hu] at h
      cases h
    | ok y =>
      simp only [bind, Except.bind, hu] at h
      obtain rfl := Except.ok.inj h
      split
      · exact Binary64.canonical_negate (canonical_unsignedFraction hu)
      · exact canonical_unsignedFraction hu

end Number

/-! ## Trees -/

namespace Tree

variable {α β : Type} {known : α → Prop}

mutual

/-- Whether the numbers in a tree are numbers of the format, and the foreign values in it are
known. -/
def Genuine (known : α → Prop) : Tree α → Prop
  | .float x => x.Canonical
  | .list items => GenuineItems known items
  | .tuple items => GenuineItems known items
  | .set items => GenuineItems known items
  | .map entries => GenuineEntries known entries
  | .foreign value => known value
  | _ => True

/-- Whether this is so in all items. -/
def GenuineItems (known : α → Prop) : List (Tree α) → Prop
  | [] => True
  | item :: rest => Genuine known item ∧ GenuineItems known rest

/-- Whether this is so in all keys and values. -/
def GenuineEntries (known : α → Prop) : List (Tree α × Tree α) → Prop
  | [] => True
  | (key, value) :: rest => Genuine known key ∧ Genuine known value ∧ GenuineEntries known rest

end

theorem genuineItems_iff {items : List (Tree α)} :
    GenuineItems known items ↔ ∀ item ∈ items, Genuine known item := by
  induction items with
  | nil => simp [GenuineItems]
  | cons item rest ih => simp [GenuineItems, ih]

theorem genuineEntries_iff {entries : List (Tree α × Tree α)} :
    GenuineEntries known entries ↔ ∀ e ∈ entries, Genuine known e.1 ∧ Genuine known e.2 := by
  induction entries with
  | nil => simp [GenuineEntries]
  | cons e rest ih =>
    obtain ⟨key, value⟩ := e
    simp [GenuineEntries, ih, and_assoc]

section Substitution

variable {put : α → Tree β} {known' : β → Prop}

mutual

/-- A tree stays genuine when genuine trees are put in for its foreign values. -/
theorem genuine_substitute (hput : ∀ a, Genuine known' (put a)) :
    ∀ tree : Tree α, Genuine known tree → Genuine known' (tree.substitute put)
  | .null, _ => trivial
  | .bool _, _ => trivial
  | .int _, _ => trivial
  | .float _, h => h
  | .text .., _ => trivial
  | .bytes _, _ => trivial
  | .moment _, _ => trivial
  | .list items, h => genuine_substituteItems hput items h
  | .tuple items, h => genuine_substituteItems hput items h
  | .set items, h => genuine_substituteItems hput items h
  | .map entries, h => genuine_substituteEntries hput entries h
  | .foreign a, _ => hput a

theorem genuine_substituteItems (hput : ∀ a, Genuine known' (put a)) :
    ∀ items : List (Tree α), GenuineItems known items →
      GenuineItems known' (substituteItems put items)
  | [], _ => trivial
  | item :: rest, h => ⟨genuine_substitute hput item h.1, genuine_substituteItems hput rest h.2⟩

theorem genuine_substituteEntries (hput : ∀ a, Genuine known' (put a)) :
    ∀ entries : List (Tree α × Tree α), GenuineEntries known entries →
      GenuineEntries known' (substituteEntries put entries)
  | [], _ => trivial
  | (key, value) :: rest, h =>
    ⟨genuine_substitute hput key h.1, genuine_substitute hput value h.2.1,
      genuine_substituteEntries hput rest h.2.2⟩

end

end Substitution

end Tree

/-! ## Drafts in the making -/

namespace Draft

open Maker

/-- Whether the numbers in a draft are numbers of the format. -/
def Genuine (draft : Draft) : Prop := Tree.Genuine (fun _ => True) draft

/-- All drafts are genuine, whatever the nodes are and for whatever reason one is refused. -/
def genuine (schema : Tag.Schema) : Law := ⟨schema, fun _ => True, Genuine, fun _ => True⟩

variable {schema : Tag.Schema} {β : Type}

theorem genuine_fail (e : Error) {given : β → Prop} :
    (genuine schema).Sustains (fail e) given := fun _ _ => trivial

theorem genuine_orBreak {x : Except Breakage β} {given : β → Prop}
    (h : ∀ b, x = .ok b → given b) : (genuine schema).Sustains (orBreak x) given := by
  cases x with
  | ok b => exact .pure (h b rfl)
  | error b => exact genuine_fail _

theorem genuine_textAt (id : NodeId) : (genuine schema).Sustains (textAt id) fun _ => True :=
  Keeps.bind .get fun _ _ => keeps_orRaise (fun _ => trivial) fun _ _ => trivial

theorem genuine_moment (id : NodeId) : (genuine schema).Sustains (moment id) fun _ => True := by
  refine .bind (genuine_textAt id) fun _ _ => .bind (keeps_nodeAt id) fun node _ => ?_
  split
  · split
    · exact genuine_fail _
    · split
      · exact .pure trivial
      · exact genuine_fail _
  · exact genuine_fail _

theorem genuine_bytes (id : NodeId) : (genuine schema).Sustains (bytes id) fun _ => True := by
  refine .bind (genuine_textAt id) fun text _ => .bind (keeps_nodeAt id) fun node _ => ?_
  dsimp only
  split
  · exact genuine_fail _
  · split
    · exact .pure trivial
    · exact genuine_fail _

/-- This is where fractions come from. -/
theorem genuine_fraction (id : NodeId) : (genuine schema).Sustains (fraction id) Genuine := by
  refine .bind (genuine_textAt id) fun text _ =>
    .bind (genuine_orBreak fun _ => Number.canonical_fraction) fun x hx => ?_
  split
  · refine .pure ?_
    split <;> trivial
  · exact .pure hx

theorem genuine_string (id : NodeId) : (genuine schema).Sustains (string id) Genuine := by
  refine .bind (genuine_textAt id) fun text _ => .bind .get fun m _ =>
    .bind (keeps_nodeAt id) fun node _ => ?_
  split
  · exact .pure trivial
  · exact .pure trivial
  · exact genuine_fail _

theorem genuine_scalar (id : NodeId) : (genuine schema).Sustains (scalar id) Genuine := by
  have hany : ∀ {β : Type} (x : Except Breakage β),
      (genuine schema).Sustains (orBreak x) fun _ => True :=
    fun _ => genuine_orBreak fun _ _ => trivial
  refine .bind (keeps_nodeAt id) fun node _ => ?_
  split
  · exact .bind (genuine_textAt id) fun _ _ => .pure trivial
  · exact .bind (genuine_textAt id) fun _ _ => .bind (hany _) fun _ _ => .pure trivial
  · exact .bind (genuine_textAt id) fun _ _ => .bind (hany _) fun _ _ => .pure trivial
  · exact genuine_fraction id
  · exact .bind (genuine_bytes id) fun _ _ => .pure trivial
  · exact .bind (genuine_moment id) fun _ _ => .pure trivial
  · exact genuine_string id
  · exact genuine_fail _

/-- Making drafts keeps the numbers in them numbers of the format. -/
theorem extends_genuine (schema : Tag.Schema) : (genuine schema).Extends where
  changes _ _ := trivial
  fault _ := trivial
  long _ _ := trivial
  entries _ _ _ _ _ := trivial
  shape _ _ _ _ _ := trivial
  scalar := genuine_scalar
  null := trivial
  waiting _ := trivial
  pair hk hv := ⟨hk, hv, trivial⟩
  list h := Tree.genuineItems_iff.2 h
  set h := Tree.genuineItems_iff.2 h
  map h := Tree.genuineEntries_iff.2 h

/-- What was pending is genuine once it is put in. -/
theorem genuine_resolved {content : NodeId → Draft} (h : ∀ id, (content id).Genuine) {α : Type}
    (known : α → Prop) (budget : Nat) (around : List NodeId) (p : Pending) :
    Tree.Genuine known (resolved content budget around p) := by
  have hhollow : ∀ draft : Draft, Tree.Genuine known (hollow draft) := fun draft => by
    cases draft <;> trivial
  induction budget generalizing around p with
  | zero =>
    cases p with
    | collection id => exact hhollow _
    | unordered id => trivial
  | succ budget ih =>
    cases p with
    | collection id =>
      rw [resolved]
      split
      · exact hhollow _
      · exact Tree.genuine_substitute (fun p => ih _ p) _ (h id)
    | unordered id => trivial

end Draft

/-- The tree of a text holds numbers of the format and nothing foreign. -/
theorem Tree.genuine_ofText {α : Type} {schema : Tag.Schema} {text : Text} {tree : Tree α}
    (h : Tree.ofText schema text = .ok tree) : tree.Genuine fun _ => False := by
  rw [Tree.ofText] at h
  cases hg : Graph.ofText schema text with
  | error e =>
    simp only [bind, Except.bind, hg] at h
    cases h
  | ok found =>
    cases found with
    | none =>
      simp only [bind, Except.bind, hg] at h
      obtain rfl := Except.ok.inj h
      trivial
    | some found =>
      obtain ⟨graph, root⟩ := found
      simp only [bind, Except.bind, hg, Tree.ofGraph] at h
      split at h
      · cases h
      · next r hr =>
        obtain rfl := Except.ok.inj h
        obtain ⟨hm, hd⟩ :=
          (Draft.ofRoot_ends (Draft.extends_genuine schema) (fun _ => trivial) root).of_ok hr
        exact Tree.genuine_substitute (fun p => Draft.genuine_resolved hm.contents _ _ _ p) r.1 hd

end Yaml

end ModernControls
