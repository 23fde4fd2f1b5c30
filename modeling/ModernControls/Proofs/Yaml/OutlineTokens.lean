import ModernControls.Proofs.Yaml.Outline

/-!
# The tokens of outlines

The token reader makes the tokens of a sound outline of its text. A part of an outline stands before
a tail, a line that is indented no more than the block around it: reading the part leads to a state
that is ready for that line, with the tokens of the part added.

Results:
- `lexes`: the tokens of an outline behind a key or a dash, whatever line follows;
- `tokenStream_write`: the tokens of a whole text.
-/
namespace ModernControls.Yaml.Outline

open Layout (Place)
open Lexer

/-- Where an outline stands in a line: after the dash of an item, or after the colon of a key. Its
own lines are indented more than the block around it. -/
inductive Stands : Place → Nat → Nat → Bool → Prop
  | item (column : Nat) : Stands .item (column + 1) column true
  | value (indent column : Nat) : Stands .value indent column false

/-- An outline is read up to the line after it. -/
def Lexes (o : Outline) : Prop :=
  ∀ ⦃place : Place⦄ ⦃indent col n : Nat⦄ ⦃al : Bool⦄ ⦃s : Lexer⦄ ⦃b : Int⦄ ⦃bs : List Int⦄
    ⦃ks : List TokenKind⦄ ⦃body : Text⦄, Stands place indent col al →
    Rests s (o.write place indent ++ (Text.spaces n ++ body)) col al (b :: bs) ks →
    0 ≤ b → b < indent → b ≤ col → (n : Int) ≤ b → Opens body →
    ∃ s', Reaches s s' ∧ Ready s' body n true (b :: bs) (ks ++ o.kinds)

/-- Lines below a first one at a column, before a tail that is indented no more: they are a tail
too, and reading them adds tokens of their own. -/
def TailLexes (column : Nat) (lines : Text) (own : List TokenKind) : Prop :=
  ∀ ⦃n : Nat⦄ (bs : List Int) ⦃body : Text⦄, n ≤ column → Opens body →
    ∃ n' body', lines ++ (Text.spaces n ++ body) = Text.spaces n' ++ body' ∧ n' ≤ column
      ∧ Opens body' ∧ ∀ s ks, Ready s body' n' true ((column : Int) :: bs) ks →
        ∃ s', Reaches s s' ∧ Ready s' body n true (column :: bs) (ks ++ own)

theorem lineEnd_lexes {last : LineEnd} (h : last.Sound) : Lexes (.leaf last) := by
  intro place indent col n al s b bs ks body _ hs hb0 hbi hbc hn ho
  have hcol : b < ((col + 1 : Nat) : Int) := by omega
  cases last with
  | nothing =>
    refine ⟨s, .refl s, ?_⟩
    have := hs.ready_feed ho
    simpa [kinds, LineEnd.kinds] using this
  | word w =>
    obtain ⟨c, r, hcr, h1, -, h2, h3, -, h4⟩ := Word.head_written h
    have hr : Rests s (Text.spaces 1 ++ (w.written ++ '\n' :: (Text.spaces n ++ body))) col al
        (b :: bs) ks := by
      simpa [write, LineEnd.write, Text.spaces] using hs
    exact (hr.ready_spaces (by rw [hcr]; simpa using ⟨h1, h2, h3, h4⟩)).word h hcol hn ho
  | formula e => exact h.elim
  | literal keeps lines =>
    obtain ⟨l, ls, rfl, hd, hon, hlast, -⟩ := h
    have hr : Rests s (Text.spaces 1 ++ ('|' :: Scalar.blockSign keeps :: '\n'
        :: (blockText indent (l :: ls) ++ (Text.spaces n ++ body)))) col al (b :: bs) ks := by
      simpa [write, LineEnd.write, Text.spaces] using hs
    exact (hr.ready_spaces (by simp; decide)).literal keeps hd hon hlast (by omega) hb0 hn hbi ho
  | brackets =>
    have hr : Rests s (Text.spaces 1 ++ ("[]\n".toList ++ (Text.spaces n ++ body))) col al
        (b :: bs) ks := by
      simpa [write, LineEnd.write, Text.spaces] using hs
    have := (hr.ready_spaces (by simp; decide)).brackets hcol ho
    simpa [kinds, LineEnd.kinds] using this
  | braces =>
    have hr : Rests s (Text.spaces 1 ++ (['\x7b', '\x7d', '\n'] ++ (Text.spaces n ++ body))) col al
        (b :: bs) ks := by
      simpa [write, LineEnd.write, Text.spaces] using hs
    have := (hr.ready_spaces (by simp; decide)).braces hcol ho
    simpa [kinds, LineEnd.kinds] using this

/-- What follows a lead stands at its indentation. -/
theorem ready_of_lead {place : Place} {indent col : Nat} {al : Bool} {s : Lexer} {bs : List Int}
    {ks : List TokenKind} {text : Text} (hp : Stands place indent col al)
    (hs : Rests s (place.lead indent ++ text) col al bs ks) (ho : Opens text) :
    Ready s text indent true bs ks := by
  cases hp with
  | item => exact hs.ready_spaces (n := 1) ho.head
  | value => exact hs.ready_feed ho

/-- The first item begins the block, and the others follow it. -/
theorem firstItem_lexes {item : Outline} {rest : List Outline} {indent n : Nat} {s : Lexer} {b : Int}
    {bs : List Int} {ks : List TokenKind} {body : Text} (hsound : item.Sound) (hi : Lexes item)
    (hrest : TailLexes indent (writeItems (Text.spaces indent) indent rest) (itemKinds rest))
    (h : Ready s ('-' :: (item.write .item (indent + Layout.step)
      ++ (writeItems (Text.spaces indent) indent rest ++ (Text.spaces n ++ body)))) indent true
      (b :: bs) ks) (hb : b < indent) (hn : n ≤ indent) (ho : Opens body) :
    ∃ s', Reaches s s' ∧ Ready s' body n true ((indent : Int) :: b :: bs)
      (ks ++ [.blockSequenceStart] ++ itemKinds (item :: rest)) := by
  obtain ⟨n', body', htail, hn', ho', hgo⟩ := hrest (b :: bs) hn ho
  rw [htail] at h
  obtain ⟨s₁, hr₁, h₁⟩ := h.dash_first hb (write_parts (by decide) hsound.ne_nil _ _)
  obtain ⟨s₂, hr₂, h₂⟩ := hi (.item (indent + 1)) h₁ (by omega) (by omega) (by omega) (by omega) ho'
  obtain ⟨s₃, hr₃, h₃⟩ := hgo s₂ _ h₂
  refine ⟨s₃, (hr₁.trans hr₂).trans hr₃, ?_⟩
  simpa [itemKinds] using h₃

theorem nextItem_lexes {item : Outline} {rest : List Outline} {indent : Nat} (hsound : item.Sound)
    (hi : Lexes item)
    (hrest : TailLexes indent (writeItems (Text.spaces indent) indent rest) (itemKinds rest)) :
    TailLexes indent (writeItems (Text.spaces indent) indent (item :: rest))
      (itemKinds (item :: rest)) := by
  intro n bs body hn ho
  obtain ⟨n', body', htail, hn', ho', hgo⟩ := hrest bs hn ho
  refine ⟨indent, '-' :: (item.write .item (indent + Layout.step) ++ (Text.spaces n' ++ body')), ?_,
    Nat.le_refl _, opens_dash (write_parts (by decide) hsound.ne_nil _ _), fun s ks h => ?_⟩
  · rw [writeItems, ← htail]
    simp
  · obtain ⟨s₁, hr₁, h₁⟩ := h.dash_next (write_parts (by decide) hsound.ne_nil _ _)
    obtain ⟨s₂, hr₂, h₂⟩ := hi (.item (indent + 1)) h₁ (by omega) (by omega) (by omega) (by omega)
      ho'
    obtain ⟨s₃, hr₃, h₃⟩ := hgo s₂ _ h₂
    refine ⟨s₃, (hr₁.trans hr₂).trans hr₃, ?_⟩
    simpa [itemKinds] using h₃

theorem firstEntry_lexes {key : Word} {value : Outline} {rest : List (Word × Outline)}
    {indent n : Nat} {s : Lexer} {b : Int} {bs : List Int} {ks : List TokenKind} {body : Text}
    (hk : key.Sound ∧ key.written.length ≤ keyReach) (hsound : value.Sound) (hv : Lexes value)
    (hrest : TailLexes indent (writeEntries (Text.spaces indent) indent rest) (entryKinds rest))
    (h : Ready s (key.written ++ ':' :: (value.write .value (indent + Layout.step)
      ++ (writeEntries (Text.spaces indent) indent rest ++ (Text.spaces n ++ body)))) indent true
      (b :: bs) ks) (hb : b < indent) (hn : n ≤ indent) (ho : Opens body) :
    ∃ s', Reaches s s' ∧ Ready s' body n true ((indent : Int) :: b :: bs)
      (ks ++ [.blockMappingStart] ++ entryKinds ((key, value) :: rest)) := by
  obtain ⟨n', body', htail, hn', ho', hgo⟩ := hrest (b :: bs) hn ho
  rw [htail] at h
  obtain ⟨s₁, col', hr₁, hcol, h₁⟩ := h.key_first hb hk.1 hk.2
    (write_parts (by decide) hsound.ne_nil _ _)
  obtain ⟨s₂, hr₂, h₂⟩ := hv (.value _ col') h₁ (by omega) (by simp only [Layout.step]; omega)
    (by omega) (by omega) ho'
  obtain ⟨s₃, hr₃, h₃⟩ := hgo s₂ _ h₂
  refine ⟨s₃, (hr₁.trans hr₂).trans hr₃, ?_⟩
  simpa [entryKinds] using h₃

theorem nextEntry_lexes {key : Word} {value : Outline} {rest : List (Word × Outline)}
    {indent : Nat} (hk : key.Sound ∧ key.written.length ≤ keyReach) (hsound : value.Sound)
    (hv : Lexes value)
    (hrest : TailLexes indent (writeEntries (Text.spaces indent) indent rest) (entryKinds rest)) :
    TailLexes indent (writeEntries (Text.spaces indent) indent ((key, value) :: rest))
      (entryKinds ((key, value) :: rest)) := by
  intro n bs body hn ho
  obtain ⟨n', body', htail, hn', ho', hgo⟩ := hrest bs hn ho
  refine ⟨indent, key.written ++ ':' :: (value.write .value (indent + Layout.step)
    ++ (Text.spaces n' ++ body')), ?_, Nat.le_refl _, Word.opens_key hk.1 _, fun s ks h => ?_⟩
  · rw [writeEntries, ← htail]
    simp
  · obtain ⟨s₁, col', hr₁, hcol, h₁⟩ := h.key_next hk.1 hk.2
      (write_parts (by decide) hsound.ne_nil _ _)
    obtain ⟨s₂, hr₂, h₂⟩ := hv (.value _ col') h₁ (by omega) (by simp only [Layout.step]; omega)
      (by omega) (by omega) ho'
    obtain ⟨s₃, hr₃, h₃⟩ := hgo s₂ _ h₂
    refine ⟨s₃, (hr₁.trans hr₂).trans hr₃, ?_⟩
    simpa [entryKinds] using h₃

theorem tail_nil (column : Nat) : TailLexes column [] [] := fun n _ body hn ho =>
  ⟨n, body, rfl, hn, ho, fun s ks h => ⟨s, .refl s, by simpa using h⟩⟩

mutual

theorem lexes : ∀ o : Outline, o.Sound → Lexes o
  | leaf _, h => lineEnd_lexes h
  | list [], h => absurd rfl h.1
  | list (item :: rest), ⟨_, hitem, hrest⟩ => by
    intro place indent col n al s b bs ks body hp hs hb0 hbi hbc hn ho
    have htail := itemsLex rest hrest indent
    simp only [write, writeItems, List.append_assoc, List.cons_append] at hs
    have hready := ready_of_lead hp hs (opens_dash (write_parts (by decide) hitem.ne_nil _ _))
    obtain ⟨s', hr, h'⟩ := firstItem_lexes hitem (lexes item hitem) htail hready hbi (by omega) ho
    refine ⟨s', hr, ?_⟩
    simpa [kinds] using h'.close (by omega)
  | map [], h => absurd rfl h.1
  | map ((key, value) :: rest), ⟨_, hkey, hvalue, hrest⟩ => by
    intro place indent col n al s b bs ks body hp hs hb0 hbi hbc hn ho
    have htail := entriesLex rest hrest indent
    simp only [write, writeEntries, List.append_assoc, List.cons_append] at hs
    have hready := ready_of_lead hp hs (Word.opens_key hkey.1 _)
    obtain ⟨s', hr, h'⟩ := firstEntry_lexes hkey hvalue (lexes value hvalue) htail hready hbi
      (by omega) ho
    refine ⟨s', hr, ?_⟩
    simpa [kinds] using h'.close (by omega)

theorem itemsLex : ∀ items : List Outline, SoundItems items → ∀ indent : Nat,
    TailLexes indent (writeItems (Text.spaces indent) indent items) (itemKinds items)
  | [], _, indent => tail_nil indent
  | item :: rest, h, indent => nextItem_lexes h.1 (lexes item h.1) (itemsLex rest h.2 indent)

theorem entriesLex : ∀ entries : List (Word × Outline), SoundEntries entries → ∀ indent : Nat,
    TailLexes indent (writeEntries (Text.spaces indent) indent entries) (entryKinds entries)
  | [], _, indent => tail_nil indent
  | (_, value) :: rest, h, indent =>
    nextEntry_lexes h.1 h.2.1 (lexes value h.2.1) (entriesLex rest h.2.2 indent)

end

/-! ## Whole texts -/

theorem firstUnreadable?_eq_none {text : Text} (h : ∀ c ∈ text, isReadable c = true) :
    firstUnreadable? text = none := by
  rw [firstUnreadable?, Option.map_eq_none_iff, List.find?_eq_none]
  rintro ⟨c, i⟩ hc
  simp [h c (List.fst_mem_of_mem_zipIdx hc)]

theorem ofText_of_reaches {text : Text} {s : Lexer} {tokens : List Token}
    (hr : ∀ c ∈ text, isReadable c = true) (h : Reaches (.start text) s)
    (hend : ∀ budget, run (budget + 1) s = ⟨tokens, none⟩) :
    TokenStream.ofText text = ⟨tokens, none⟩ := by
  obtain ⟨n, hn, hrun⟩ := h
  have hlen : (Lexer.start text).cursor.rest.length = text.length := rfl
  obtain ⟨m, hm⟩ : ∃ m, text.length + 2 = m + 1 + n := ⟨text.length + 1 - n, by omega⟩
  rw [TokenStream.ofText, firstUnreadable?_eq_none hr]
  show run (text.length + 2) (.start text) = _
  rw [hm, hrun, hend]

/-- The tokens of the text of a list or a map. -/
theorem tokenStream_write {o : Outline} (h : o.Sound) (hroot : ∀ last, o ≠ leaf last) :
    ∃ tokens, TokenStream.ofText (o.write .start 0) = ⟨tokens, none⟩
      ∧ tokens.map (·.kind) = [.streamStart] ++ o.kinds ++ [.streamEnd] := by
  have hread := readable_write .start 0 o h
  have hstart := rests_start (o.write .start 0)
  have finish : ∀ {s ks}, Reaches (.start (o.write .start 0)) s →
      Ready s [] 0 true ((0 : Nat) :: -1 :: []) ([.streamStart] ++ ks) →
      ∃ tokens, TokenStream.ofText (o.write .start 0) = ⟨tokens, none⟩
        ∧ tokens.map (·.kind) = [.streamStart] ++ (ks ++ [.blockEnd]) ++ [.streamEnd] := by
    intro s ks hs hready
    obtain ⟨tokens, hrun, hk⟩ := hready.finish [0] (by simp)
    exact ⟨tokens, ofText_of_reaches hread hs hrun, by simpa using hk⟩
  cases o with
  | leaf last => exact absurd rfl (hroot last)
  | list items =>
    cases items with
    | nil => exact absurd rfl h.1
    | cons item rest =>
      have hw : (list (item :: rest)).write .start 0
          = '-' :: (item.write .item (0 + Layout.step)
            ++ (writeItems (Text.spaces 0) 0 rest ++ (Text.spaces 0 ++ []))) := by
        simp [write, writeItems, Place.lead, Text.spaces]
      have hopen := opens_dash (write_parts (p := .item) (by decide) h.2.1.ne_nil (0 + Layout.step)
        (writeItems (Text.spaces 0) 0 rest ++ (Text.spaces 0 ++ [])))
      have hready := hstart.ready (hw ▸ hopen)
      rw [hw] at hready
      obtain ⟨s, hr, hs⟩ := firstItem_lexes h.2.1 (lexes item h.2.1) (itemsLex rest h.2.2 0) hready
        (by decide) (Nat.le_refl 0) .nil
      obtain ⟨tokens, ht, hk⟩ := finish (by rw [hw]; exact hr) (by simpa using hs)
      exact ⟨tokens, ht, by rw [hk]; simp [kinds]⟩
  | map entries =>
    cases entries with
    | nil => exact absurd rfl h.1
    | cons entry rest =>
      obtain ⟨key, value⟩ := entry
      have hw : (map ((key, value) :: rest)).write .start 0
          = key.written ++ ':' :: (value.write .value (0 + Layout.step)
            ++ (writeEntries (Text.spaces 0) 0 rest ++ (Text.spaces 0 ++ []))) := by
        simp [write, writeEntries, Place.lead, Text.spaces]
      have hready := hstart.ready (hw ▸ Word.opens_key h.2.1.1 _)
      rw [hw] at hready
      obtain ⟨s, hr, hs⟩ := firstEntry_lexes h.2.1 h.2.2.1 (lexes value h.2.2.1)
        (entriesLex rest h.2.2.2 0) hready (by decide) (Nat.le_refl 0) .nil
      obtain ⟨tokens, ht, hk⟩ := finish (by rw [hw]; exact hr) (by simpa using hs)
      exact ⟨tokens, ht, by rw [hk]; simp [kinds]⟩

/-- The tokens of a text that is one word between quotation marks. -/
theorem tokenStream_word {w : Word} (h : w.Sound) (hs : w.style ≠ .plain) :
    ∃ tokens, TokenStream.ofText w.written = ⟨tokens, none⟩
      ∧ tokens.map (·.kind) = [.streamStart, .scalar w.value w.style, .streamEnd] := by
  have hstart := (rests_start (w.written ++ [])).ready (Word.opens_quoted h hs [])
  obtain ⟨s, col, hreach, hs'⟩ := hstart.quoted h hs (by decide) (by simp)
  rw [List.append_nil] at hreach
  obtain ⟨tokens, hrun, hk⟩ := (hs'.ready .nil).finish [] (by simp)
  exact ⟨tokens, ofText_of_reaches (Word.readable h) hreach hrun, by simpa using hk⟩

/-- The tokens of a text that is a key with a word between quotation marks, without a line feed. -/
theorem tokenStream_entry {key w : Word} (hk : key.Sound ∧ key.written.length ≤ keyReach)
    (h : w.Sound) (hs : w.style ≠ .plain) :
    ∃ tokens, TokenStream.ofText (key.written ++ ':' :: ' ' :: w.written) = ⟨tokens, none⟩
      ∧ tokens.map (·.kind)
        = [.streamStart] ++ (map [(key, leaf (.word w))]).kinds ++ [.streamEnd] := by
  have hread : ∀ c ∈ key.written ++ ':' :: ' ' :: w.written, isReadable c = true := by
    simp only [List.mem_append, List.mem_cons]
    rintro c (hc | rfl | rfl | hc)
    · exact Word.readable hk.1 c hc
    · decide
    · decide
    · exact Word.readable h c hc
  have hparts : Parts (' ' :: w.written) := ⟨' ', _, rfl, .inl rfl⟩
  obtain ⟨s₁, col, hreach₁, -, h₁⟩ := ((rests_start _).ready (Word.opens_key hk.1 _)).key_first
    (by decide) hk.1 hk.2 hparts
  rw [show ' ' :: w.written = Text.spaces 1 ++ (w.written ++ []) by simp [Text.spaces]] at h₁
  have hword := h₁.ready_spaces (Word.opens_quoted h hs []).head
  obtain ⟨s₂, col', hreach₂, h₂⟩ := hword.quoted h hs (by omega) (by simp)
  obtain ⟨tokens, hrun, hkinds⟩ := (h₂.ready .nil).finish [0] (by simp)
  exact ⟨tokens, ofText_of_reaches hread (hreach₁.trans hreach₂) hrun,
    by simpa [kinds, entryKinds, LineEnd.kinds] using hkinds⟩

end ModernControls.Yaml.Outline
