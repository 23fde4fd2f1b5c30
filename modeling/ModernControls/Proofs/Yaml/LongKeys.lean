import ModernControls.Proofs.Yaml.Composing
import ModernControls.Proofs.Yaml.OutlineTrees

/-!
# Keys that are too long

A key has to come to its colon within 1024 characters. At a longer key the token reader stops: where
a key has to come it misses the colon, and elsewhere it finds a colon that belongs to no key. The
tokens up to there do not end the text, so the text has no graph.

Results:
- `Ready.key_long`: the token reader stops at a long key;
- `stops`: so it does in an outline with a long key, wherever the key stands;
- `graph_long`: the text of such an outline has no graph;
- `ofText_list_iff`: which lists of maps are read as what they say.
-/
namespace ModernControls.Yaml

namespace Lexer

variable {s s' : Lexer} {rest raw text : Text} {col : Nat} {al : Bool} {o : List Int} {b : Int}
  {ks : List TokenKind}

/-- Some steps lead to one that fails, and the end of the text is not among the tokens. -/
def Stalls (s : Lexer) : Prop :=
  ∃ s' e, Reaches s s' ∧ s'.step = .error e ∧ .streamEnd ∉ s'.kinds

theorem Stalls.of_reaches (h : Reaches s s') (hs : Stalls s') : Stalls s := by
  obtain ⟨s'', e, hr, he, hk⟩ := hs
  exact ⟨s'', e, h.trans hr, he, hk⟩

/-- The tokens that can be used are among all of them. -/
theorem mem_kinds_of_usable {token : Token} (h : token ∈ s.usable) : token.kind ∈ s.kinds := by
  refine List.mem_map_of_mem ?_
  rw [usable] at h
  split at h
  · exact List.mem_of_mem_take h
  · exact h

/-! ## Long keys -/

theorem kinds_skipToToken (budget : Nat) (s : Lexer) : (skipToToken budget s).kinds = s.kinds := by
  induction budget generalizing s with
  | zero => rfl
  | succ budget ih =>
    rw [skipToToken]
    generalize (if s.cursor.skipSpaces.peek = '#' then s.cursor.skipSpaces.skipLine
      else s.cursor.skipSpaces) = c
    split
    · exact ih _
    · rfl

theorem kinds_dropStale (h : s.dropStale = .ok s') : s'.kinds = s.kinds := by
  rw [dropStale] at h
  split at h
  · cases h
  · obtain rfl := Except.ok.inj h
    rfl

/-- Passing over blanks makes no tokens. -/
theorem kinds_settled (h : s.settled = .ok s') : s'.kinds = s.kinds := by
  rw [kinds_dropStale h, kinds_skipToToken, skipByteOrderMark]
  split <;> rfl

/-- The kinds that a state has are among those that it is ready with. -/
theorem Ready.mem_kinds {bs : List Int} (h : Ready s text col al bs ks) {k : TokenKind}
    (hk : k ∈ s.kinds) : k ∈ ks := by
  obtain ⟨-, s', closed, before, hs, hr, -, rfl⟩ := h
  rw [← kinds_settled hs, hr.kinds] at hk
  exact List.mem_append_left _ hk

/-- After a long word its place is the place of a key no more: where a key has to come this is a
fault. -/
theorem dropStale_longWord {w : Text} (token : Token) (h : s.cursor.rest = w ++ rest)
    (hb : ∀ ch ∈ w, isBreak ch = false) (hl : keyReach < w.length) :
    (s.afterWord token w.length).dropStale
      = if s.indent = s.column then (s.afterWord token w.length).noColon s.wordKey
        else .ok { s.afterWord token w.length with keys := [] } := by
  obtain ⟨-, -, h3, -⟩ := Cursor.advance_word h hb
  have hstale : (s.afterWord token w.length).isStale s.wordKey = true := by
    simp only [isStale, afterWord, wordKey, mark, Cursor.mark, h3, Bool.or_eq_true,
      decide_eq_true_eq]
    right
    omega
  have hkeys : (s.afterWord token w.length).keys = [s.wordKey] := rfl
  rw [dropStale, hkeys]
  by_cases hreq : s.indent = s.column
  · have hr : s.wordKey.required = true := decide_eq_true hreq
    rw [List.find?_cons_of_pos (by simp [hstale, hr]), if_pos hreq]
  · have hr : s.wordKey.required = false := decide_eq_false hreq
    rw [List.find?_cons_of_neg (by simp [hr]), List.find?_nil, if_neg hreq]
    simp [hstale]

/-- A colon that belongs to no key stops the token reader. -/
theorem value_alone (hk : s.keys = []) (hd : s.depth = 0) (ha : s.keyAllowed = false) :
    ∃ e, s.value = .error e := by
  rw [value, hk]
  simp only [List.find?_nil, valueAlone, hd, ha]
  exact ⟨_, rfl⟩

/-- The token reader stops at a long key. -/
theorem Ready.key_long {w : Word} (h : Ready s (w.written ++ ':' :: raw) col true (b :: o) ks)
    (hb : b ≤ col) (hw : w.Sound) (hl : keyReach < w.written.length) (hr : Parts raw)
    (hk : .streamEnd ∉ ks) : Stalls s := by
  have hnb := Word.not_break hw
  have hopen := Word.opens_key hw raw
  obtain ⟨c, r, hcr, -, -, -, -, hend, -⟩ := Word.head_written hw
  obtain ⟨s₂, ⟨s₁, token, h₁, hkind, rfl⟩, hs⟩ := h.step hb
    (P := fun s₂ => ∃ s₁ token, Rests s₁ (w.written ++ ':' :: raw) col true (b :: o) ks
      ∧ token.kind = .scalar w.value w.style ∧ s₂ = s₁.afterWord token w.written.length)
    ⟨c, _, by rw [hcr]; rfl, hend⟩ fun s₁ h₁ => by
      obtain ⟨token, hread, hk⟩ := readWord_key h₁ hw hr hb
      exact ⟨_, (token_word h₁ hw ⟨hopen.start, hopen.finish⟩).trans hread, s₁, token, h₁, hk, rfl⟩
  rw [dropStale_longWord token h₁.rest hnb hl] at hs
  by_cases hreq : s₁.indent = s₁.column
  · rw [if_pos hreq] at hs
    exact ⟨s, _, .refl s, hs, fun hm => hk (h.mem_kinds hm)⟩
  · rw [if_neg hreq] at hs
    have hrest : (s₁.afterWord token w.written.length).cursor.rest = ':' :: raw :=
      (Cursor.advance_word h₁.rest hnb).1
    let s₂ : Lexer := { s₁.afterWord token w.written.length with keys := [] }
    obtain ⟨e, he⟩ := value_alone (s := s₂) rfl h₁.depth rfl
    have hcolon := step_colon (s := s₂) hrest hr h₁.depth rfl h₁.blocks
      (le_column_afterWord token h₁ hnb hb)
    rw [he] at hcolon
    have hkinds : (s₁.afterWord token w.written.length).kinds
        = ks ++ [.scalar w.value w.style] := by
      rw [← h₁.kinds, ← hkind]
      simp [kinds, afterWord]
    refine ⟨_, e, .of_step hs ?_, hcolon, ?_⟩
    · have htext := h.1
      have hlen := List.length_pos_iff.2 (Word.written_ne_nil hw)
      rw [List.length_append] at htext
      show (s₁.afterWord token w.written.length).cursor.rest.length < _
      rw [hrest]
      omega
    · show .streamEnd ∉ (s₁.afterWord token w.written.length).kinds
      rw [hkinds]
      simpa using hk

end Lexer

namespace Outline

open Layout (Place)
open Lexer

/-! ## Outlines with long keys -/

mutual

/-- Whether the words of an outline are read as they are meant, and its lists and maps hold
something. -/
def Worded : Outline → Prop
  | leaf last => last.Sound
  | list items => items ≠ [] ∧ WordedItems items
  | map entries => entries ≠ [] ∧ WordedEntries entries

/-- Whether this is so in all items. -/
def WordedItems : List Outline → Prop
  | [] => True
  | item :: rest => Worded item ∧ WordedItems rest

/-- Whether this is so in all entries. -/
def WordedEntries : List (Word × Outline) → Prop
  | [] => True
  | (key, value) :: rest => key.Sound ∧ Worded value ∧ WordedEntries rest

end

mutual

/-- Whether all keys are short enough to be seen as keys. -/
def Short : Outline → Prop
  | leaf _ => True
  | list items => ShortItems items
  | map entries => ShortEntries entries

/-- Whether this is so in all items. -/
def ShortItems : List Outline → Prop
  | [] => True
  | item :: rest => Short item ∧ ShortItems rest

/-- Whether this is so in all entries. -/
def ShortEntries : List (Word × Outline) → Prop
  | [] => True
  | (key, value) :: rest => key.written.length ≤ keyReach ∧ Short value ∧ ShortEntries rest

end

mutual

/-- An outline of readable words is read as it is meant if its keys are short. -/
theorem sound_iff : ∀ o : Outline, o.Sound ↔ o.Worded ∧ o.Short
  | leaf _ => (and_iff_left trivial).symm
  | list items => by rw [Sound, Worded, Short, soundItems_iff items, and_assoc]
  | map entries => by rw [Sound, Worded, Short, soundEntries_iff entries, and_assoc]

theorem soundItems_iff : ∀ items : List Outline,
    SoundItems items ↔ WordedItems items ∧ ShortItems items
  | [] => (and_iff_left trivial).symm
  | item :: rest => by
    rw [SoundItems, WordedItems, ShortItems, sound_iff item, soundItems_iff rest]
    exact and_and_and_comm

theorem soundEntries_iff : ∀ entries : List (Word × Outline),
    SoundEntries entries ↔ WordedEntries entries ∧ ShortEntries entries
  | [] => (and_iff_left trivial).symm
  | (key, value) :: rest => by
    rw [SoundEntries, WordedEntries, ShortEntries, sound_iff value, soundEntries_iff rest]
    constructor
    · rintro ⟨⟨hk, hl⟩, ⟨hw, hs⟩, hws, hss⟩
      exact ⟨⟨hk, hw, hws⟩, hl, hs, hss⟩
    · rintro ⟨⟨hk, hw, hws⟩, hl, hs, hss⟩
      exact ⟨⟨hk, hl⟩, ⟨hw, hs⟩, hws, hss⟩

end

theorem Worded.ne_nil {o : Outline} (h : o.Worded) : o ≠ list [] ∧ o ≠ map [] :=
  ⟨fun he => (he ▸ h : (list []).Worded).1 rfl, fun he => (he ▸ h : (map []).Worded).1 rfl⟩

mutual

/-- No token of an outline is the end of the text. -/
theorem not_streamEnd : ∀ o : Outline, .streamEnd ∉ o.kinds
  | leaf last => by cases last <;> simp [kinds, LineEnd.kinds]
  | list items => by simp [kinds, not_streamEnd_items items]
  | map entries => by simp [kinds, not_streamEnd_entries entries]

theorem not_streamEnd_items : ∀ items : List Outline, .streamEnd ∉ itemKinds items
  | [] => List.not_mem_nil
  | item :: rest => by simp [itemKinds, not_streamEnd item, not_streamEnd_items rest]

theorem not_streamEnd_entries : ∀ entries : List (Word × Outline), .streamEnd ∉ entryKinds entries
  | [] => List.not_mem_nil
  | (_, value) :: rest => by simp [entryKinds, not_streamEnd value, not_streamEnd_entries rest]

end

/-! ## Where the token reader stops -/

/-- The token reader stops in an outline, whatever follows. -/
def Stops (o : Outline) : Prop :=
  ∀ ⦃place : Place⦄ ⦃indent col : Nat⦄ ⦃al : Bool⦄ ⦃s : Lexer⦄ ⦃b : Int⦄ ⦃bs : List Int⦄
    ⦃ks : List TokenKind⦄ (rest : Text), Stands place indent col al →
    Rests s (o.write place indent ++ rest) col al (b :: bs) ks → 0 ≤ b → b < indent → b ≤ col →
    .streamEnd ∉ ks → Stalls s

/-- The token reader stops in lines below a first one at a column. -/
def TailStops (column : Nat) (lines : Text) : Prop :=
  ∀ (bs : List Int) (rest : Text), ∃ body, lines ++ rest = Text.spaces column ++ body
    ∧ Opens body ∧ ∀ s ks, Ready s body column true ((column : Int) :: bs) ks →
      .streamEnd ∉ ks → Stalls s

section Stops

variable {item value : Outline} {items : List Outline} {key : Word}
  {entries : List (Word × Outline)} {indent col : Nat} {s : Lexer} {bs : List Int}
  {ks : List TokenKind} {rest : Text}

/-- After a dash the token reader stops in the item, or in the items after it. -/
theorem item_stops
    (hi : Stops item ∨ Lexes item ∧ TailStops indent (writeItems (Text.spaces indent) indent items))
    (h : Rests s (item.write .item (indent + Layout.step)
      ++ (writeItems (Text.spaces indent) indent items ++ rest)) (indent + 1) true
      ((indent : Int) :: bs) ks)
    (hk : .streamEnd ∉ ks) : Stalls s := by
  rcases hi with hi | ⟨hi, htail⟩
  · exact hi _ (.item (indent + 1)) h (by omega) (by omega) (by omega) hk
  · obtain ⟨body, hlines, ho, hgo⟩ := htail bs rest
    rw [hlines] at h
    obtain ⟨s', hr, h'⟩ := hi (.item (indent + 1)) h (by omega) (by omega) (by omega) (by omega) ho
    exact (hgo s' _ h' (by simp [hk, not_streamEnd])).of_reaches hr

/-- After a key and its colon the token reader stops in the value, or in the entries after it. -/
theorem entry_stops (hv : Stops value
      ∨ Lexes value ∧ TailStops indent (writeEntries (Text.spaces indent) indent entries))
    (h : Rests s (value.write .value (indent + Layout.step)
      ++ (writeEntries (Text.spaces indent) indent entries ++ rest)) col false (indent :: bs) ks)
    (hcol : indent ≤ col) (hk : .streamEnd ∉ ks) : Stalls s := by
  rcases hv with hv | ⟨hv, htail⟩
  · exact hv _ (.value _ col) h (by omega) (by simp only [Layout.step]; omega) (by omega) hk
  · obtain ⟨body, hlines, ho, hgo⟩ := htail bs rest
    rw [hlines] at h
    obtain ⟨s', hr, h'⟩ := hv (.value _ col) h (by omega) (by simp only [Layout.step]; omega)
      (by omega) (by omega) ho
    exact (hgo s' _ h' (by simp [hk, not_streamEnd])).of_reaches hr

theorem firstEntry_stops {b : Int} (hkey : key.Sound) (hvalue : value ≠ list [] ∧ value ≠ map [])
    (hv : key.written.length ≤ keyReach → Stops value
      ∨ Lexes value ∧ TailStops indent (writeEntries (Text.spaces indent) indent entries))
    (h : Ready s (key.written ++ ':' :: (value.write .value (indent + Layout.step)
      ++ (writeEntries (Text.spaces indent) indent entries ++ rest))) indent true (b :: bs) ks)
    (hb : b < indent) (hk : .streamEnd ∉ ks) : Stalls s := by
  by_cases hl : key.written.length ≤ keyReach
  · obtain ⟨s', col, hr, hcol, h'⟩ := h.key_first hb hkey hl (write_parts (by decide) hvalue _ _)
    exact (entry_stops (hv hl) h' hcol (by simp [hk])).of_reaches hr
  · exact h.key_long (by omega) hkey (by omega) (write_parts (by decide) hvalue _ _) hk

theorem nextEntry_stops (hkey : key.Sound) (hvalue : value ≠ list [] ∧ value ≠ map [])
    (hv : key.written.length ≤ keyReach → Stops value
      ∨ Lexes value ∧ TailStops indent (writeEntries (Text.spaces indent) indent entries))
    (h : Ready s (key.written ++ ':' :: (value.write .value (indent + Layout.step)
      ++ (writeEntries (Text.spaces indent) indent entries ++ rest))) indent true
      ((indent : Int) :: bs) ks)
    (hk : .streamEnd ∉ ks) : Stalls s := by
  by_cases hl : key.written.length ≤ keyReach
  · obtain ⟨s', col, hr, hcol, h'⟩ := h.key_next hkey hl (write_parts (by decide) hvalue _ _)
    exact (entry_stops (hv hl) h' hcol (by simp [hk])).of_reaches hr
  · exact h.key_long (by omega) hkey (by omega) (write_parts (by decide) hvalue _ _) hk

/-- Some item is the one in which the token reader stops: the first, or a later one. -/
def ItemsStop : List Outline → Prop
  | [] => False
  | item :: rest => ∀ indent, Stops item
    ∨ Lexes item ∧ TailStops indent (writeItems (Text.spaces indent) indent rest)

/-- Some entry is the one in which the token reader stops, at its key or in its value. -/
def EntriesStop : List (Word × Outline) → Prop
  | [] => False
  | (key, value) :: rest => key.written.length ≤ keyReach → ∀ indent, Stops value
    ∨ Lexes value ∧ TailStops indent (writeEntries (Text.spaces indent) indent rest)

theorem ItemsStop.tail {items : List Outline} (h : ItemsStop items) (hw : WordedItems items)
    (indent : Nat) : TailStops indent (writeItems (Text.spaces indent) indent items) := by
  cases items with
  | nil => exact h.elim
  | cons item items =>
    intro bs rest
    refine ⟨'-' :: (item.write .item (indent + Layout.step)
      ++ (writeItems (Text.spaces indent) indent items ++ rest)), by simp [writeItems],
      opens_dash (write_parts (by decide) hw.1.ne_nil _ _), fun s ks hs hk => ?_⟩
    obtain ⟨s', hr, h'⟩ := hs.dash_next (write_parts (by decide) hw.1.ne_nil _ _)
    exact (item_stops (h indent) h' (by simp [hk])).of_reaches hr

theorem EntriesStop.tail {entries : List (Word × Outline)} (h : EntriesStop entries)
    (hw : WordedEntries entries) (indent : Nat) :
    TailStops indent (writeEntries (Text.spaces indent) indent entries) := by
  cases entries with
  | nil => exact h.elim
  | cons entry entries =>
    obtain ⟨key, value⟩ := entry
    intro bs rest
    exact ⟨key.written ++ ':' :: (value.write .value (indent + Layout.step)
      ++ (writeEntries (Text.spaces indent) indent entries ++ rest)), by simp [writeEntries],
      Word.opens_key hw.1 _, fun s ks hs hk =>
        nextEntry_stops hw.1 hw.2.1.ne_nil (fun hl => h hl indent) hs hk⟩

end Stops

mutual

/-- The token reader stops in an outline of readable words with a long key. -/
theorem stops : ∀ o : Outline, o.Worded → ¬o.Short → Stops o
  | leaf _, _, hs => absurd trivial hs
  | list [], hw, _ => absurd rfl hw.1
  | list (item :: items), hw, hs => by
    intro place indent col al s b bs ks rest hp h hb0 hbi hbc hk
    have hparts := fun r =>
      write_parts (p := .item) (by decide) hw.2.1.ne_nil (indent + Layout.step) r
    simp only [write, writeItems, List.append_assoc, List.cons_append] at h
    obtain ⟨s', hr, h'⟩ := (ready_of_lead hp h (opens_dash (hparts _))).dash_first hbi (hparts _)
    exact (item_stops (itemsStop (item :: items) hw.2 hs indent) h' (by simp [hk])).of_reaches hr
  | map [], hw, _ => absurd rfl hw.1
  | map ((key, value) :: entries), hw, hs => by
    intro place indent col al s b bs ks rest hp h hb0 hbi hbc hk
    simp only [write, writeEntries, List.append_assoc, List.cons_append] at h
    exact firstEntry_stops hw.2.1 hw.2.2.1.ne_nil
      (fun hl => entriesStop ((key, value) :: entries) hw.2 hs hl indent)
      (ready_of_lead hp h (Word.opens_key hw.2.1 _)) hbi hk

theorem itemsStop : ∀ items : List Outline, WordedItems items → ¬ShortItems items →
    ItemsStop items
  | [], _, hs => absurd trivial hs
  | item :: items, hw, hs => fun indent => by
    by_cases hi : item.Short
    · have hrest : ¬ShortItems items := fun hrest => hs ⟨hi, hrest⟩
      exact .inr ⟨lexes item ((sound_iff item).2 ⟨hw.1, hi⟩),
        (itemsStop items hw.2 hrest).tail hw.2 indent⟩
    · exact .inl (stops item hw.1 hi)

theorem entriesStop : ∀ entries : List (Word × Outline), WordedEntries entries →
    ¬ShortEntries entries → EntriesStop entries
  | [], _, hs => absurd trivial hs
  | (key, value) :: entries, hw, hs => fun hl indent => by
    by_cases hv : value.Short
    · have hrest : ¬ShortEntries entries := fun hrest => hs ⟨hl, hv, hrest⟩
      exact .inr ⟨lexes value ((sound_iff value).2 ⟨hw.2.1, hv⟩),
        (entriesStop entries hw.2.2 hrest).tail hw.2.2 indent⟩
    · exact .inl (stops value hw.2.1 hv)

end

/-! ## Whole texts -/

/-- The token reader stops in a text with a long key. -/
theorem stalls_start {o : Outline} (hw : o.Worded) (hs : ¬o.Short) :
    Stalls (.start (o.write .start 0)) := by
  have hstart := rests_start (o.write .start 0)
  cases o with
  | leaf last => exact absurd trivial hs
  | list items =>
    cases items with
    | nil => exact absurd rfl hw.1
    | cons item items =>
      have hparts := fun r => write_parts (p := .item) (by decide) hw.2.1.ne_nil (0 + Layout.step) r
      have htext : (list (item :: items)).write .start 0
          = '-' :: (item.write .item (0 + Layout.step)
            ++ (writeItems (Text.spaces 0) 0 items ++ [])) := by
        simp [write, writeItems, Place.lead]
      rw [htext] at hstart ⊢
      obtain ⟨s', hr, h'⟩ :=
        (hstart.ready (opens_dash (hparts _))).dash_first (by decide) (hparts _)
      exact (item_stops (itemsStop (item :: items) hw.2 hs 0) h' (by simp)).of_reaches hr
  | map entries =>
    cases entries with
    | nil => exact absurd rfl hw.1
    | cons entry entries =>
      obtain ⟨key, value⟩ := entry
      have htext : (map ((key, value) :: entries)).write .start 0
          = key.written ++ ':' :: (value.write .value (0 + Layout.step)
            ++ (writeEntries (Text.spaces 0) 0 entries ++ [])) := by
        simp [write, writeEntries, Place.lead]
      rw [htext] at hstart ⊢
      exact firstEntry_stops hw.2.1 hw.2.2.1.ne_nil
        (fun hl => entriesStop ((key, value) :: entries) hw.2 hs hl 0)
        (hstart.ready (Word.opens_key hw.2.1 _)) (by decide) (by simp)

/-- The tokens of a text with a long key break off. -/
theorem tokens_endless {o : Outline} (hw : o.Worded) (hs : ¬o.Short) :
    ∀ token ∈ (TokenStream.ofText (o.write .start 0)).tokens, token.kind ≠ .streamEnd := by
  rw [TokenStream.ofText]
  cases firstUnreadable? (o.write .start 0) with
  | some place => exact fun _ ht => absurd ht List.not_mem_nil
  | none =>
    obtain ⟨s, e, ⟨n, hn, hrun⟩, he, hk⟩ := stalls_start hw hs
    have hlen : (Lexer.start (o.write .start 0)).cursor.rest.length
        = (o.write .start 0).length := rfl
    obtain ⟨m, hm⟩ : ∃ m, (o.write .start 0).length + 2 = m + 1 + n :=
      ⟨(o.write .start 0).length + 1 - n, by omega⟩
    dsimp only
    rw [hm, hrun, run_succ, he]
    exact fun token ht hend => hk (hend ▸ mem_kinds_of_usable ht)

/-- A text with a long key has no graph. -/
theorem graph_long (schema : Tag.Schema) {o : Outline} (hw : o.Worded) (hs : ¬o.Short) :
    ∃ e, Graph.ofText schema (o.write .start 0) = .error e :=
  Graph.ofText_endless schema (tokens_endless hw hs)

/-- A list of maps is read as what it says, just if its keys are short and no map has a key
twice. -/
theorem ofText_list_iff {α : Type} {items : List Outline} {tree : Tree α}
    (hw : (list items).Worded) (ht : (list items).meaning? = some tree)
    (hmaps : ∀ item ∈ items, ∃ entries, item = map entries) :
    GivesIff ((list items).Short ∧ (list items).Distinct)
      (Tree.ofText .reduced ((list items).write .start 0)) (· = tree) := by
  by_cases hs : (list items).Short
  · exact (ofText_list ((sound_iff _).2 ⟨hw, hs⟩) ht hmaps).congr (and_iff_right hs).symm
  · obtain ⟨e, he⟩ := graph_long .reduced hw hs
    refine .of_error (e := e) (fun h => hs h.1) ?_
    rw [Tree.ofText, he]
    rfl

end Outline

end ModernControls.Yaml
