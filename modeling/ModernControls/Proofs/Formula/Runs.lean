import ModernControls.Proofs.Formula.Reversed
import ModernControls.Proofs.Yaml.Alike

/-!
# Lines below the header of a block

A block scalar begins behind a key or behind the dash of an item, and the lines that are blank or
indented more than that key or dash are its own. Escaping should leave all of them alone. It does,
whatever the lines are and whatever stands before and after them, if the key is one that is found
again on its line: not between quotation marks, without a colon in it, and behind at most one dash.
Below any other header the lines are taken for lines of their own.

What such a block scalar is read as depends on its own lines only, so it is read from the escaped
text as from the text itself.

Results:
- `escapeLines_append`: escaping goes through lines one after the other;
- `exists_kept`: a run below a header that is found stays in every state of the escaping;
- `leavesRuns_iff`: the headers below which every run stays and is read alike.
-/
namespace ModernControls

open Yaml

namespace Formula

open LineEnd (OneLine)

/-! ## Headers -/

/-- What stands before the sign of a block scalar on its line: spaces, dashes with spaces after
each, and a key or the dash of an item. -/
structure Opener where
  margin : Nat
  dashes : List Nat
  key : Option Text

namespace Opener

/-- What stands before the key or the last dash. -/
def lead (o : Opener) : Text :=
  Text.spaces o.margin ++ o.dashes.flatMap fun more => '-' :: Text.spaces (more + 1)

/-- The column of the key or the last dash. -/
def column (o : Opener) : Nat := o.lead.length

/-- The key with its colon, or the last dash. -/
def mark (o : Opener) : Text :=
  match o.key with
  | none => ['-']
  | some key => key ++ [':']

/-- The sign of a block scalar. -/
def sign (isFolded : Bool) (chomping : Scalar.Chomping) : Text :=
  (if isFolded then '>' else '|') :: match chomping with
    | .strip => ['-']
    | .clip => []
    | .keep => ['+']

/-- The line of a header. -/
def line (o : Opener) (isFolded : Bool) (chomping : Scalar.Chomping) : Text :=
  o.lead ++ o.mark ++ ' ' :: sign isFolded chomping

/-- Whether a text is a key on one line: it begins with no blank and not with the dash of an item,
and if there are no quotation marks around it, no blank follows a colon in it. -/
structure IsKey (key : Text) : Prop where
  ne_nil : key ≠ []
  one : OneLine key
  begins : Begins key
  dash : ∀ r, key = '-' :: r → r ≠ [] ∧ Begins r
  colon : key.head? ≠ some '\'' → key.head? ≠ some '"' →
    ∀ a b, key = a ++ ':' :: b → Begins b

/-- The key of a header that is found again on its line. -/
def bareKey? (o : Opener) : Option Text :=
  match o.key with
  | some (c :: t) =>
    if o.dashes.length ≤ 1 ∧ startsKey c = true ∧ ':' ∉ t then some (c :: t) else none
  | _ => none

variable {o : Opener} {isFolded : Bool} {chomping : Scalar.Chomping}

theorem begins_sign : Begins (sign isFolded chomping) := by
  cases isFolded <;> simp [Begins, sign] <;> decide

theorem treatment_sign (key : Text) : treatment key (sign isFolded chomping) = .ok .block := by
  cases isFolded <;> cases chomping <;> rfl

/-- Spaces after a dash are before what comes next. -/
theorem indentOf_dashed (m k : Nat) {t : Text} (h : Begins t) :
    indentOf (Text.spaces m ++ '-' :: (Text.spaces (k + 1) ++ t))
      = (Text.spaces m ++ '-' :: Text.spaces (k + 1), t) := by
  obtain ⟨h1, h2⟩ := takeWhile_spaces m
    (t := '-' :: (Text.spaces (k + 1) ++ t)) (by simp [Begins]; decide)
  obtain ⟨h3, h4⟩ := takeWhile_spaces (k + 1) h
  rw [indentOf, h1, h2]
  simp only [h3, h4]
  rfl

/-- Behind at most one dash, what comes next is looked at. -/
theorem indentOf_lead (hd : o.dashes.length ≤ 1) {t : Text} (ht : Begins t)
    (hne : t.head? ≠ some '-') : indentOf (o.lead ++ t) = (o.lead, t) := by
  obtain ⟨margin, dashes, key⟩ := o
  match dashes with
  | [] =>
    simp only [lead, List.flatMap_nil, List.append_nil]
    exact indentOf_spaces margin ht hne
  | [k] =>
    simp only [lead, List.flatMap_cons, List.flatMap_nil, List.append_nil, List.append_assoc,
      List.cons_append]
    exact indentOf_dashed margin k ht
  | _ :: _ :: _ => simp at hd

/-- Behind more than one dash nothing is a key. -/
theorem parse?_dashes (hd : ¬o.dashes.length ≤ 1) (t : Text) :
    KeyLine.parse? (o.lead ++ t) = none := by
  obtain ⟨margin, dashes, key⟩ := o
  match dashes with
  | [] => simp at hd
  | [k] => simp at hd
  | k :: k' :: dashes =>
    simp only [lead, List.flatMap_cons, List.append_assoc, List.cons_append]
    exact KeyLine.parse?_of_indentOf (indentOf_dashed margin k (by simp [Begins]; decide))
      (by decide)

/-- Behind another dash a dash begins no key. -/
theorem parse?_dash (hd : o.dashes ≠ []) (t : Text) :
    KeyLine.parse? (o.lead ++ '-' :: t) = none := by
  obtain ⟨margin, dashes, key⟩ := o
  match dashes with
  | [] => exact absurd rfl hd
  | [k] =>
    simp only [lead, List.flatMap_cons, List.flatMap_nil, List.append_nil, List.append_assoc,
      List.cons_append]
    exact KeyLine.parse?_of_indentOf (indentOf_dashed margin k (by simp [Begins]; decide))
      (by decide)
  | _ :: _ :: _ => exact parse?_dashes (by simp) _

/-- Nor does a character that no key begins with. -/
theorem parse?_start {c : Char} {t : Text} (hc : startsKey c = false) (hb : isSpaceOrTab c = false)
    (hdash : c = '-' → Begins t) : KeyLine.parse? (o.lead ++ c :: t) = none := by
  have hbegins : Begins (c :: t) := by simpa [Begins] using hb
  by_cases he : c = '-'
  · subst he
    by_cases hd : o.dashes = []
    · rw [lead, hd, List.flatMap_nil, List.append_nil]
      exact KeyLine.parse?_of_indentOf (indentOf_lone o.margin (hdash rfl)) hc
    · exact parse?_dash hd t
  · by_cases hd : o.dashes.length ≤ 1
    · exact KeyLine.parse?_of_indentOf (indentOf_lead hd hbegins (by simpa using he)) hc
    · exact parse?_dashes hd _

theorem no_colon_sign : ':' ∉ sign isFolded chomping := by
  cases isFolded <;> cases chomping <;> decide

/-- The line of a header behind the dash of an item is no key line. -/
theorem parse?_item (hk : o.key = none) : KeyLine.parse? (o.line isFolded chomping) = none := by
  rw [line, mark, hk, List.append_assoc]
  by_cases hd : o.dashes = []
  · rw [lead, hd, List.flatMap_nil, List.append_nil]
    have hsign : sign isFolded chomping = (if isFolded then '>' else '|') ::
      (sign isFolded chomping).tail := rfl
    refine KeyLine.parse?_no_colon (c := if isFolded then '>' else '|')
      (indentOf_dashed o.margin 0 begins_sign) fun hm => ?_
    exact no_colon_sign (hsign ▸ List.mem_cons_of_mem _ hm)
  · exact parse?_dash hd _

/-- The line of a header behind a key is a key line just if the key is found again. -/
theorem parse?_key {key : Text} (hk : o.key = some key) (hkey : IsKey key) :
    KeyLine.parse? (o.line isFolded chomping)
      = o.bareKey?.map fun key => ⟨o.lead, key, some ([' '], sign isFolded chomping)⟩ := by
  obtain ⟨c, t, rfl⟩ := List.exists_cons_of_ne_nil hkey.ne_nil
  have hline : o.line isFolded chomping
      = o.lead ++ c :: (t ++ ':' :: ' ' :: sign isFolded chomping) := by
    simp [line, mark, hk]
  have hb : isSpaceOrTab c = false := hkey.begins c rfl
  have hbegins : ∀ u, Begins (c :: u) := fun u => by simpa [Begins] using hb
  rw [hline, bareKey?, hk]
  dsimp only
  cases hc : startsKey c with
  | false =>
    rw [if_neg (by simp)]
    refine parse?_start hc hb fun he => ?_
    obtain ⟨hne, hrest⟩ := hkey.dash t (by rw [he])
    obtain ⟨d, u, rfl⟩ := List.exists_cons_of_ne_nil hne
    simpa [Begins] using hrest
  | true =>
    by_cases hd : o.dashes.length ≤ 1
    · have hdash : c ≠ '-' := by
        rintro rfl
        exact absurd hc (by decide)
      have hi := indentOf_lead hd (hbegins (t ++ ':' :: ' ' :: sign isFolded chomping))
        (by simpa using hdash)
      by_cases hcolon : ':' ∈ t
      · rw [if_neg (by simp [hcolon])]
        obtain ⟨a, b, rfl, ha⟩ := List.eq_append_cons_of_mem hcolon
        have hquotes : ∀ q, startsKey q = false → (c :: (a ++ ':' :: b)).head? ≠ some q := by
          rintro q hq he
          obtain rfl := Option.some.inj he
          rw [hc] at hq
          cases hq
        have hafter : Begins b :=
          hkey.colon (hquotes _ (by decide)) (hquotes _ (by decide)) (c :: a) b rfl
        have hcut : Text.cut ':' ((a ++ ':' :: b) ++ ':' :: ' ' :: sign isFolded chomping)
            = (a, some (b ++ ':' :: ' ' :: sign isFolded chomping)) := by
          simpa using Text.cut_append ha (b ++ ':' :: ' ' :: sign isFolded chomping)
        have hnone : KeyLine.valueOf? (b ++ ':' :: ' ' :: sign isFolded chomping) = none := by
          refine KeyLine.valueOf?_of_begins (by simp) ?_
          cases b with
          | nil => simp [Begins]; decide
          | cons d b => simpa [Begins] using hafter
        rw [KeyLine.parse?_key hi hc hcut, hnone]
        rfl
      · rw [if_pos ⟨hd, rfl, hcolon⟩, KeyLine.parse?_key hi hc (Text.cut_append hcolon _),
          KeyLine.valueOf?_space begins_sign]
        rfl
    · rw [if_neg (by simp [hd])]
      exact parse?_dashes hd _

/-- The line of a header is a key line just if its key is found again. -/
theorem parse?_line (isFolded : Bool) (chomping : Scalar.Chomping)
    (ho : ∀ key ∈ o.key, IsKey key) :
    KeyLine.parse? (o.line isFolded chomping)
      = o.bareKey?.map fun key => ⟨o.lead, key, some ([' '], sign isFolded chomping)⟩ := by
  cases hk : o.key with
  | none =>
    rw [parse?_item hk, bareKey?, hk]
    rfl
  | some key => exact parse?_key hk (ho key hk)

/-! ## Escaping past a header -/

theorem exists_line (isFolded : Bool) (chomping : Scalar.Chomping)
    (ho : ∀ key ∈ o.key, IsKey key) : ∃ d r,
    o.line isFolded chomping = Text.spaces o.margin ++ d :: r ∧ d ≠ ' ' := by
  rw [line, lead]
  cases hd : o.dashes with
  | cons k dashes => exact ⟨'-', _, by simp [List.flatMap_cons]; rfl, by decide⟩
  | nil =>
    rw [mark]
    cases hk : o.key with
    | none => exact ⟨'-', _, by simp; rfl, by decide⟩
    | some key =>
      obtain ⟨c, t, hct⟩ := List.exists_cons_of_ne_nil (ho key hk).ne_nil
      refine ⟨c, t ++ ':' :: ' ' :: sign isFolded chomping, by simp [hct], ?_⟩
      rintro rfl
      exact absurd ((ho key hk).begins ' ' (by rw [hct]; rfl)) (by decide)

theorem margin_le_column (o : Opener) : o.margin ≤ o.column := by
  simp [column, lead]

/-- A header that is in a block is indented more than what begins the block. -/
theorem lt_column_of_inBlock (ho : ∀ key ∈ o.key, IsKey key) {m : Nat}
    (h : inBlock (some m) (o.line isFolded chomping) = true) : m < o.column := by
  obtain ⟨d, r, hline, hd⟩ := exists_line isFolded chomping ho
  have hblank : (o.line isFolded chomping).isAllBlank = false := by
    rw [Text.isAllBlank, List.all_eq_false]
    refine ⟨if isFolded then '>' else '|', ?_, ?_⟩
    · rw [line, List.mem_append]
      exact .inr (List.mem_cons_of_mem _ List.mem_cons_self)
    · cases isFolded <;> decide
  have hspaces : (o.line isFolded chomping).takeWhile (· = ' ') = Text.spaces o.margin := by
    rw [hline]
    exact (Text.takeWhile_run (fun c hc => by simpa using List.eq_of_mem_replicate hc)
      (by simpa using hd) r).1
  rw [inBlock, hblank, hspaces] at h
  have := margin_le_column o
  simp [Text.spaces] at h
  omega

end Opener

/-- Lines after their treatment, and the block that the next line may be in. -/
def escapeThrough (block : Option Nat) : List Text → Except Breakage (List Text × Option Nat)
  | [] => .ok ([], block)
  | line :: rest =>
    if inBlock block line then (escapeThrough block rest).map fun p => (line :: p.1, p.2)
    else do
      let (line, block) ← escapeLine line
      (escapeThrough block rest).map fun p => (line :: p.1, p.2)

/-- Escaping goes through lines one after the other: what comes of the first ones, and the block
that the next line may be in, do not depend on the next lines. -/
theorem escapeLines_append (block : Option Nat) (before rest : List Text) :
    escapeLines block (before ++ rest)
      = escapeThrough block before >>= fun p => (escapeLines p.2 rest).map (p.1 ++ ·) := by
  -- A first line is put before what comes of the others, whatever the block is.
  have hcons : ∀ (line : Text) (run : Except Breakage (List Text × Option Nat)),
      ((run >>= fun p => (escapeLines p.2 rest).map (p.1 ++ ·)) >>= fun out => .ok (line :: out))
        = (run.map fun p => (line :: p.1, p.2)) >>= fun p =>
          (escapeLines p.2 rest).map (p.1 ++ ·) := by
    intro line run
    cases run with
    | error b => rfl
    | ok p => simp only [Except.map, bind, Except.bind]; cases escapeLines p.2 rest <;> rfl
  induction before generalizing block with
  | nil =>
    simp only [escapeThrough, bind, Except.bind, List.nil_append]
    cases escapeLines block rest <;> rfl
  | cons line before ih =>
    rw [List.cons_append, escapeLines, escapeThrough]
    split
    · rw [ih block]
      exact hcons line (escapeThrough block before)
    · cases escapeLine line with
      | error b => rfl
      | ok found =>
        obtain ⟨line', block'⟩ := found
        exact (congrArg (· >>= fun out => Except.ok (line' :: out)) (ih block')).trans
          (hcons line' (escapeThrough block' before))

theorem length_escapeThrough {block : Option Nat} {lines : List Text} {p : List Text × Option Nat}
    (h : escapeThrough block lines = .ok p) : p.1.length = lines.length := by
  induction lines generalizing block p with
  | nil => exact Except.ok.inj h ▸ rfl
  | cons line lines ih =>
    rw [escapeThrough] at h
    split at h
    · obtain ⟨q, hq, rfl⟩ := exists_of_map h
      exact congrArg (· + 1) (ih hq)
    · obtain ⟨found, -, h⟩ := exists_of_bind h
      obtain ⟨q, hq, rfl⟩ := exists_of_map h
      exact congrArg (· + 1) (ih hq)

namespace Opener

variable {o : Opener} {isFolded : Bool} {chomping : Scalar.Chomping}

/-- Below a header that is found every run stays, whatever block the header is in. -/
theorem exists_kept (isFolded : Bool) (chomping : Scalar.Chomping)
    (ho : ∀ key ∈ o.key, IsKey key) (hbare : o.bareKey?.isSome = true) (block : Option Nat) :
    ∃ block', ∀ body after,
      (∀ line ∈ body, inBlock (some o.column) line = true) →
      escapeLines block (o.line isFolded chomping :: (body ++ after))
        = (escapeLines block' after).map fun out => o.line isFolded chomping :: (body ++ out) := by
  obtain ⟨key, hkey⟩ := Option.isSome_iff_exists.1 hbare
  have hparse := parse?_line isFolded chomping ho
  rw [hkey] at hparse
  by_cases hb : inBlock block (o.line isFolded chomping) = true
  · refine ⟨block, fun body after hrun => ?_⟩
    have hall : ∀ line ∈ o.line isFolded chomping :: body, inBlock block line = true := by
      cases block with
      | none => cases hb
      | some m =>
        have hm := lt_column_of_inBlock ho hb
        refine List.forall_mem_cons.2 ⟨hb, fun line hl => ?_⟩
        have hline := hrun line hl
        simp only [inBlock, Bool.or_eq_true, decide_eq_true_eq] at hline ⊢
        exact hline.imp_right fun h => Nat.lt_trans hm h
    exact escapeLines_run hall after
  · have hline : escapeLine (o.line isFolded chomping)
        = .ok (o.line isFolded chomping, some o.column) :=
      escapeLine_block hparse (treatment_sign _)
    refine ⟨some o.column, fun body after hrun => ?_⟩
    rw [escapeLines, if_neg hb, hline]
    simp only [bind, Except.bind, escapeLines_run hrun after]
    cases escapeLines (some o.column) after <;> rfl

end Opener

/-! ## What is read below a header -/

/-- Whether lines are below a run of lines that are indented more than a column: the first of them
begins, after no more spaces than that, with a character that is no space and ends no line. -/
def EndsRun (column : Nat) (after : List Text) : Prop :=
  ∀ line ∈ after.head?, ∃ k d r, k ≤ column ∧ d ≠ ' ' ∧ isBreak d = false
    ∧ line = Text.spaces k ++ d :: r

theorem exists_start {u x : Text} {k : Nat} {d : Char} {r : Text} (hu : ∃ c ∈ u, c ≠ ' ')
    (h : u ++ x = Text.spaces k ++ d :: r) : ∃ r', u = Text.spaces k ++ d :: r' := by
  obtain ⟨c, hc, hne⟩ := hu
  induction k generalizing u with
  | zero =>
    obtain ⟨e, u, rfl⟩ := List.exists_cons_of_ne_nil (List.ne_nil_of_mem hc)
    exact ⟨u, by rw [(List.cons.inj h).1]; rfl⟩
  | succ k ih =>
    obtain ⟨e, u, rfl⟩ := List.exists_cons_of_ne_nil (List.ne_nil_of_mem hc)
    obtain ⟨rfl, hrest⟩ := List.cons.inj h
    obtain ⟨r', rfl⟩ := ih hrest ((List.mem_cons.1 hc).resolve_left hne)
    exact ⟨r', rfl⟩

/-- A key begins with no blank. -/
theorem startsKey_of_parse? {line : Text} {k : KeyLine} (h : KeyLine.parse? line = some k) :
    ∃ c ∈ k.key, startsKey c = true := by
  rw [KeyLine.parse?] at h
  split at h
  · split at h
    · next hc =>
      split at h
      · obtain ⟨_, -, rfl⟩ := Option.map_eq_some_iff.1 h
        exact ⟨_, List.mem_cons_self, hc⟩
      · cases h
    · cases h
  · cases h

/-- An escaped line begins as the line does, up to the character after its spaces. -/
theorem exists_escapeLine_start {line out : Text} {block : Option Nat} {k : Nat} {d : Char}
    {r : Text} (h : escapeLine line = .ok (out, block)) (hline : line = Text.spaces k ++ d :: r) :
    ∃ r', out = Text.spaces k ++ d :: r' := by
  rw [escapeLine] at h
  split at h
  · next indent key blanks value hk =>
    obtain ⟨found, -, h⟩ := exists_of_bind h
    cases found with
    | keep => exact ⟨r, (Prod.mk.inj (Except.ok.inj h)).1 ▸ hline⟩
    | block => exact ⟨r, (Prod.mk.inj (Except.ok.inj h)).1 ▸ hline⟩
    | quote t =>
      obtain ⟨c, hc, hstart⟩ := startsKey_of_parse? hk
      have hspace : c ≠ ' ' := by
        rintro rfl
        exact absurd hstart (by decide)
      have htext : indent ++ key ++ ':' :: (blanks ++ value) = line := KeyLine.text_of_parse? hk
      obtain ⟨r', hr'⟩ := exists_start ⟨c, List.mem_append_right _ hc, hspace⟩ (htext.trans hline)
      refine ⟨r' ++ ':' :: ' ' :: Json.quote false t, ?_⟩
      rw [← (Prod.mk.inj (Except.ok.inj h)).1, quotedLine, hr']
      simp
  · exact ⟨r, (Prod.mk.inj (Except.ok.inj h)).1 ▸ hline⟩

/-- The lines below a run begin as they do when they are escaped. -/
theorem starts_of_escapeLines {block : Option Nat} {column : Nat} {after out : List Text}
    (h : escapeLines block after = .ok out) (he : EndsRun column after) (hne : after ≠ []) :
    out ≠ [] ∧ Starts column (Text.ofLines after) (Text.ofLines out) := by
  obtain ⟨line, rest, rfl⟩ := List.exists_cons_of_ne_nil hne
  obtain ⟨k, d, r, hk, hd, hb, hline⟩ := he line rfl
  have hout : ∃ out' outs, out = out' :: outs ∧ ∃ r', out' = Text.spaces k ++ d :: r' := by
    rw [escapeLines] at h
    split at h
    · obtain ⟨outs, -, heq⟩ := exists_of_bind h
      exact ⟨line, outs, (Except.ok.inj heq).symm, r, hline⟩
    · obtain ⟨⟨line', block'⟩, hl, h⟩ := exists_of_bind h
      obtain ⟨outs, -, heq⟩ := exists_of_bind h
      exact ⟨line', outs, (Except.ok.inj heq).symm, exists_escapeLine_start hl hline⟩
  obtain ⟨out', outs, rfl, r', rfl⟩ := hout
  obtain ⟨s, hs⟩ := Text.exists_ofLines line rest
  obtain ⟨s', hs'⟩ := Text.exists_ofLines (Text.spaces k ++ d :: r') outs
  exact ⟨by simp, k, d, r ++ s, r' ++ s', hk, hd, hb, by rw [hs, hline]; simp, by rw [hs']; simp⟩

namespace Opener

/-- Whether all runs below a header stay, between what the lines above and below them become, and
whether the block scalar is read there as it is from the text itself. -/
def LeavesRuns (o : Opener) (isFolded : Bool) (chomping : Scalar.Chomping) : Prop :=
  ∀ before after : List Text, (∀ line ∈ before ++ after, OneLine line) →
    ∃ parts : Except Breakage (List Text × List Text),
      (∀ body, (∀ line ∈ body, OneLine line ∧ inBlock (some o.column) line = true) →
        escape (Text.ofLines (before ++ o.line isFolded chomping :: (body ++ after)))
          = parts.map fun p => Text.ofLines (p.1 ++ o.line isFolded chomping :: (body ++ p.2)))
      ∧ ∀ p, parts = .ok p → p.1.length = before.length ∧ p.2.length = after.length
        ∧ (EndsRun o.column after → ∀ body parent, o.column < parent →
          ∀ c c' : Cursor, c.column = c'.column
            → c.rest = Text.ofLines (sign isFolded chomping :: (body ++ after))
            → c'.rest = Text.ofLines (sign isFolded chomping :: (body ++ p.2))
            → (Scalar.block isFolded parent c').toOption.map (·.1.kind)
              = (Scalar.block isFolded parent c).toOption.map (·.1.kind))

variable {o : Opener} {isFolded : Bool} {chomping : Scalar.Chomping}

theorem oneLine_line (isFolded : Bool) (chomping : Scalar.Chomping)
    (ho : ∀ key ∈ o.key, IsKey key) :
    OneLine (o.line isFolded chomping) := by
  have hlead : OneLine o.lead := by
    refine Row.oneLine_append (Row.oneLine_spaces _) ?_
    simp [OneLine, Text.spaces]
  have hsign : OneLine (' ' :: sign isFolded chomping) := by
    cases isFolded <;> cases chomping <;> exact ⟨by decide, by decide⟩
  have hmark : OneLine o.mark := by
    rw [mark]
    cases hk : o.key with
    | none => exact ⟨by decide, by decide⟩
    | some key => exact Row.oneLine_append (ho key hk).one ⟨by decide, by decide⟩
  exact Row.oneLine_append (Row.oneLine_append hlead hmark) hsign

theorem escape_ofLines {lines : List Text} (hne : lines ≠ []) (h : ∀ line ∈ lines, OneLine line) :
    escape (Text.ofLines lines) = (escapeLines none lines).map Text.ofLines := by
  rw [escape, Text.unifyBreaks_eq (Text.not_mem_ofLines (by decide) fun l hl => (h l hl).2),
    Text.lines_ofLines hne fun l hl => (h l hl).1]

/-- The block scalar of a header is read from its own lines. -/
theorem read_alike {block : Option Nat} {after out body : List Text} {parent : Nat} {c c' : Cursor}
    (h : escapeLines block after = .ok out) (he : EndsRun o.column after)
    (hparent : o.column < parent) (hc : c.column = c'.column)
    (hr : c.rest = Text.ofLines (sign isFolded chomping :: (body ++ after)))
    (hr' : c'.rest = Text.ofLines (sign isFolded chomping :: (body ++ out))) :
    (Scalar.block isFolded parent c').toOption.map (·.1.kind)
      = (Scalar.block isFolded parent c).toOption.map (·.1.kind) := by
  have habove : Cursor.Above o.column c c' := by
    by_cases hne : after = []
    · subst hne
      cases h
      exact .same hc (hr.trans hr'.symm)
    · obtain ⟨hout, hstarts⟩ := starts_of_escapeLines h he hne
      rw [← List.cons_append, Text.ofLines_above (by simp) hne] at hr
      rw [← List.cons_append, Text.ofLines_above (by simp) hout] at hr'
      exact .line hc hr hr' hstarts
  have hpeek : c.peek ≠ '\n' := by
    obtain ⟨r, hs⟩ := Text.exists_ofLines (sign isFolded chomping) (body ++ after)
    rw [Cursor.peek, hr, hs]
    cases isFolded <;> simp [sign]
  exact (Scalar.block_alike isFolded hparent habove hpeek).map_toOption.symm

/-- A line that is in a block at a column, and is escaped where it is in no block. -/
def formulaLine (column : Nat) : Text := Text.spaces (column + 1) ++ 'k' :: ": =x".toList

theorem oneLine_formulaLine (column : Nat) : OneLine (formulaLine column) :=
  Row.oneLine_append (Row.oneLine_spaces _) ⟨by decide, by decide⟩

theorem inBlock_formulaLine (column : Nat) : inBlock (some column) (formulaLine column) = true := by
  rw [formulaLine, inBlock, Row.spaces_takeWhile _ (by decide), Bool.or_eq_true, decide_eq_true_eq]
  exact .inr (by simp)

theorem escapeLine_formulaLine (column : Nat) :
    escapeLine (formulaLine column)
      = .ok (quotedLine (Text.spaces (column + 1) ++ ['k']) [formulaMark, 'x'], none) := by
  have hparse : KeyLine.parse? (formulaLine column)
      = some ⟨Text.spaces (column + 1), ['k'], some ([' '], ['=', 'x'])⟩ := by
    rw [formulaLine, KeyLine.parse?_key
      (indentOf_spaces (column + 1) (by simp [Begins]; decide) (by decide)) (by decide) rfl]
    rfl
  exact escapeLine_quote hparse (treatment_of_formula _ ['x'])

/-- Where the header is not found, a formula below it is taken for one. -/
theorem escapeLines_below_unfound (isFolded : Bool) (chomping : Scalar.Chomping)
    (ho : ∀ key ∈ o.key, IsKey key) (hno : o.bareKey? = none) :
    escapeLines none [o.line isFolded chomping, formulaLine o.column]
      = .ok [o.line isFolded chomping,
        quotedLine (Text.spaces (o.column + 1) ++ ['k']) [formulaMark, 'x']] := by
  have hfirst : escapeLine (o.line isFolded chomping) = .ok (o.line isFolded chomping, none) := by
    rw [escapeLine, parse?_line isFolded chomping ho, hno]
    rfl
  simp only [escapeLines, inBlock, Bool.false_eq_true, if_false, hfirst, escapeLine_formulaLine,
    bind, Except.bind]

/-- Then it does not stay. -/
theorem not_leavesRuns (ho : ∀ key ∈ o.key, IsKey key) (hno : o.bareKey? = none) :
    ¬o.LeavesRuns isFolded chomping := by
  intro h
  have hline := oneLine_line isFolded chomping ho
  have hformula := oneLine_formulaLine o.column
  obtain ⟨parts, hkept, hparts⟩ := h [] [] (by simp)
  have hescape := hkept [formulaLine o.column]
    (by simpa using ⟨hformula, inBlock_formulaLine o.column⟩)
  rw [List.nil_append, List.append_nil, escape_ofLines (by simp) (by simpa using ⟨hline, hformula⟩),
    escapeLines_below_unfound isFolded chomping ho hno] at hescape
  obtain ⟨⟨above, below⟩, hok, heq⟩ := exists_of_map hescape.symm
  obtain ⟨habove, hbelow, -⟩ := hparts _ hok
  obtain rfl : above = [] := List.length_eq_zero_iff.1 habove
  obtain rfl : below = [] := List.length_eq_zero_iff.1 hbelow
  dsimp only at heq
  rw [List.nil_append, List.append_nil, Text.ofLines_cons (o.line isFolded chomping) (by simp),
    Text.ofLines_cons (o.line isFolded chomping) (by simp), List.append_cancel_left_eq,
    formulaLine] at heq
  simp [Text.ofLines, Text.join, quotedLine, Json.quote] at heq

/-- Every run below a header stays and is read alike just if the key of the header is found
again. -/
theorem leavesRuns_iff (ho : ∀ key ∈ o.key, IsKey key) :
    o.LeavesRuns isFolded chomping ↔ o.bareKey?.isSome = true := by
  have hline := oneLine_line isFolded chomping ho
  constructor
  · intro h
    by_contra hno
    exact not_leavesRuns ho (Option.not_isSome_iff_eq_none.1 hno) h
  · intro hbare before after hone
    choose block' hkept using fun block =>
      exists_kept isFolded chomping ho hbare block
    refine ⟨escapeThrough none before >>= fun p =>
      (escapeLines (block' p.2) after).map fun out => (p.1, out),
      fun body hbody => ?_, fun p hp => ?_⟩
    · have hall : ∀ line ∈ before ++ o.line isFolded chomping :: (body ++ after), OneLine line := by
        simp only [List.mem_append, List.mem_cons] at hone ⊢
        rintro l (hl | rfl | hl | hl)
        · exact hone l (.inl hl)
        · exact hline
        · exact (hbody l hl).1
        · exact hone l (.inr hl)
      rw [escape_ofLines (by simp) hall, escapeLines_append]
      cases escapeThrough none before with
      | error b => rfl
      | ok p =>
        simp only [bind, Except.bind, hkept p.2 body after fun l hl => (hbody l hl).2]
        cases escapeLines (block' p.2) after <;> rfl
    · obtain ⟨q, hq, hout⟩ := exists_of_bind hp
      obtain ⟨out, hread, rfl⟩ := exists_of_map hout
      exact ⟨length_escapeThrough hq, length_escapeLines hread,
        fun he body parent hparent c c' hc hr hr' => read_alike hread he hparent hc hr hr'⟩

/-- Below the key of an item. -/
theorem leavesRuns_itemKey :
    (∀ key ∈ (⟨2, [0], some ['T']⟩ : Opener).key, IsKey key)
      ∧ (⟨2, [0], some ['T']⟩ : Opener).LeavesRuns true .strip := by
  have hkey : ∀ key ∈ (⟨2, [0], some ['T']⟩ : Opener).key, IsKey key := by
    rintro key hk
    obtain rfl : ['T'] = key := Option.some.inj hk
    refine ⟨by decide, ⟨by decide, by decide⟩, by simp [Begins]; decide, by simp, ?_⟩
    intro _ _ a b hab
    have hmem : ':' ∈ ['T'] := hab ▸ List.mem_append_right a List.mem_cons_self
    exact absurd hmem (by decide)
  exact ⟨hkey, (leavesRuns_iff hkey).2 rfl⟩

/-- Below a key between quotation marks a line of the block scalar becomes another one. -/
theorem escape_below_quotedKey :
    (⟨0, [], some "\"T\"".toList⟩ : Opener).line false .clip = "\"T\": |".toList
      ∧ inBlock (some (⟨0, [], some "\"T\"".toList⟩ : Opener).column) "  k: =x".toList = true
      ∧ escape "\"T\": |\n  k: =x\n".toList
        = .ok "\"T\": |\n  k: \"\\u001ex\"\n".toList :=
  ⟨rfl, rfl, eq_ok_of_toOption (by decide +kernel)⟩

end Opener

end Formula

end ModernControls
