import ModernControls.Proofs.Json.Quoted
import ModernControls.Proofs.Outcomes
import ModernControls.Proofs.Tables

/-!
# Reading written JSON

What a reader gives is data: every object has each key once, and no integer has more digits than may
be read. Data without fractions is read again from its text, with the fields of every object in their
order, at every indentation and on one line.

**Data (`IsData`).** What can come out of JSON text.

**Distinct keys (`HasDistinctKeys`).** What any object is that is given as data. With integers that
are short enough to be written (`isShort`) that is what comes out of text.

**Whole numbers (`IsWhole`).** Values without fractions at any depth.

**What closes a value (`Closes`).** The end of the text, or what is written after a value in it.

Results:
- `isData_parse`: what is read is data;
- `readNumber_ofInt`: an integer is read up to where it ends;
- `reads_of_isData`: a value is read up to where it ends;
- `parse_render_iff`: which values without fractions are written and read again.
-/
namespace ModernControls.Json

variable {rest : Text} {indent : Option Nat} {depth budget : Nat}

/-- Whether a value can come out of JSON text: every key once, no integer of too many digits. -/
inductive IsData : Json → Prop
  | null : IsData .null
  | bool (value : Bool) : IsData (.bool value)
  | int {n : Int} (short : isLongInteger n = false) : IsData (.int n)
  | float (value : Binary64) : IsData (.float value)
  | string (value : Text) : IsData (.string value)
  | array {items : List Json} (each : ∀ item ∈ items, IsData item) : IsData (.array items)
  | object {fields : List (Text × Json)} (distinct : (Table.keys fields).Nodup)
    (each : ∀ field ∈ fields, IsData field.2) : IsData (.object fields)

/-- Whether every object in a value has every key once. -/
inductive HasDistinctKeys : Json → Prop
  | null : HasDistinctKeys .null
  | bool (value : Bool) : HasDistinctKeys (.bool value)
  | int (value : Int) : HasDistinctKeys (.int value)
  | float (value : Binary64) : HasDistinctKeys (.float value)
  | string (value : Text) : HasDistinctKeys (.string value)
  | array {items : List Json} (each : ∀ item ∈ items, HasDistinctKeys item) :
    HasDistinctKeys (.array items)
  | object {fields : List (Text × Json)} (distinct : (Table.keys fields).Nodup)
    (each : ∀ field ∈ fields, HasDistinctKeys field.2) : HasDistinctKeys (.object fields)

/-- Whether the numbers of a value are integers, at any depth. -/
inductive IsWhole : Json → Prop
  | null : IsWhole .null
  | bool (value : Bool) : IsWhole (.bool value)
  | int (value : Int) : IsWhole (.int value)
  | string (value : Text) : IsWhole (.string value)
  | array {items : List Json} (each : ∀ item ∈ items, IsWhole item) : IsWhole (.array items)
  | object {fields : List (Text × Json)} (each : ∀ field ∈ fields, IsWhole field.2) :
    IsWhole (.object fields)

theorem IsData.hasDistinctKeys {found : Json} (h : found.IsData) : found.HasDistinctKeys := by
  induction h with
  | null => exact .null
  | bool b => exact .bool b
  | int short => exact .int _
  | float x => exact .float x
  | string t => exact .string t
  | array each ih => exact .array ih
  | object distinct each ih => exact .object distinct ih

theorem IsData.isShort {found : Json} (h : found.IsData) : found.isShort = true := by
  induction h with
  | int short => simpa [Json.isShort] using short
  | array each ih => exact areShort_iff.2 ih
  | object distinct each ih => exact areShortFields_iff.2 ih
  | _ => rfl

theorem HasDistinctKeys.isData {found : Json} (h : found.HasDistinctKeys)
    (hs : found.isShort = true) : found.IsData := by
  induction h with
  | null => exact .null
  | bool b => exact .bool b
  | int n => exact .int (by simpa [Json.isShort] using hs)
  | float x => exact .float x
  | string t => exact .string t
  | array each ih => exact .array fun item hi => ih item hi (areShort_iff.1 hs item hi)
  | object distinct each ih =>
    exact .object distinct fun field hf => ih field hf (areShortFields_iff.1 hs field hf)

/-- What may follow a value: nothing, a comma, a bracket that closes, or the end of its line. -/
def Closes (rest : Text) : Prop :=
  ∀ c ∈ rest.head?, c = ',' ∨ c = ']' ∨ c = '\x7d' ∨ c = '\n'

theorem closes_comma (text : Text) : Closes (',' :: text) :=
  fun _ hc => .inl (Option.some.inj hc).symm

theorem closes_bracket (text : Text) : Closes (']' :: text) :=
  fun _ hc => .inr (.inl (Option.some.inj hc).symm)

theorem closes_brace (text : Text) : Closes ('\x7d' :: text) :=
  fun _ hc => .inr (.inr (.inl (Option.some.inj hc).symm))

/-! ## Space -/

/-- Space is passed over up to what follows it. -/
theorem skipSpace_append {gap : Text} (hg : ∀ c ∈ gap, isSpace c = true) {c : Char}
    (hc : isSpace c = false) (text : Text) : skipSpace (gap ++ c :: text) = c :: text := by
  rw [skipSpace, List.dropWhile_append_of_pos hg, List.dropWhile_cons, if_neg (by simp [hc])]

theorem isSpace_lineAt (indent : Option Nat) (depth : Nat) :
    ∀ c ∈ lineAt indent depth, isSpace c = true := by
  intro c h
  cases indent with
  | none => cases h
  | some width =>
    rcases List.mem_cons.1 h with rfl | h
    · rfl
    · rw [Text.spaces] at h
      exact (List.mem_replicate.1 h).2 ▸ rfl

theorem closes_lineAt (indent : Option Nat) (depth : Nat) (h : Closes rest) :
    Closes (lineAt indent depth ++ rest) := by
  cases indent with
  | none => exact h
  | some width => exact fun c hc => .inr (.inr (.inr (Option.some.inj hc).symm))

/-- What separates two values is a comma and space. -/
theorem separatorAt_eq (indent : Option Nat) (depth : Nat) :
    ∃ gap, separatorAt indent depth = ',' :: gap ∧ ∀ c ∈ gap, isSpace c = true := by
  cases indent with
  | none => exact ⟨[' '], rfl, by decide⟩
  | some width => exact ⟨lineAt (some width) depth, rfl, isSpace_lineAt (some width) depth⟩

/-! ## Words and numbers -/

theorem after?_of_ne {c d : Char} (h : c ≠ d) (start text : Text) :
    Text.after? (d :: start) (c :: text) = none := by rw [Text.after?, if_neg h]

/-- A number is no fixed word, with a minus or without. -/
theorem readWord_digit {c : Char} (h : isAsciiDigit c = true) (text : Text) :
    readWord (c :: text) = readNumber (c :: text)
      ∧ readWord ('-' :: c :: text) = readNumber ('-' :: c :: text) := by
  have hne : c ≠ 'n' ∧ c ≠ 't' ∧ c ≠ 'f' ∧ c ≠ 'N' ∧ c ≠ 'I' ∧ c ≠ '-' :=
    forall_digit (P := fun c => c ≠ 'n' ∧ c ≠ 't' ∧ c ≠ 'f' ∧ c ≠ 'N' ∧ c ≠ 'I' ∧ c ≠ '-')
      (by decide) h
  obtain ⟨hn, ht, hf, hN, hI, hm⟩ := hne
  constructor
  · simp [readWord, words, after?_of_ne, hn, ht, hf, hN, hI, hm]
  · simp [readWord, words, Text.after?, hI]

/-- Digits end where a value is closed. -/
theorem takeWhile_digits_of_closes {digits : Text} (hd : ∀ c ∈ digits, isAsciiDigit c = true)
    (hr : Closes rest) : (digits ++ rest).takeWhile isAsciiDigit = digits
      ∧ (digits ++ rest).dropWhile isAsciiDigit = rest := by
  have hrest : rest.takeWhile isAsciiDigit = [] ∧ rest.dropWhile isAsciiDigit = rest := by
    cases rest with
    | nil => exact ⟨rfl, rfl⟩
    | cons c r =>
      have hc : isAsciiDigit c = false := by rcases hr c rfl with rfl | rfl | rfl | rfl <;> decide
      simp [hc]
  rw [List.takeWhile_append_of_pos hd, List.dropWhile_append_of_pos hd, hrest.1, hrest.2,
    List.append_nil]
  exact ⟨rfl, rfl⟩

/-- The digits of an integer are all digits before its point. -/
theorem wholePart_ofNat (n : Nat) (hr : Closes rest) :
    wholePart (Text.ofNat n ++ rest) = (Text.ofNat n, rest) := by
  obtain ⟨c, r, hc, -, -, hzero⟩ := exists_ofNat n
  have hdigits := takeWhile_digits_of_closes (fun c hm => isAsciiDigit_of_mem_ofNat (n := n) hm) hr
  unfold wholePart
  split
  · next heq =>
    rw [hc, List.cons_append] at heq
    obtain ⟨rfl, rfl⟩ := List.cons.inj heq
    rw [hc, hzero rfl]
    rfl
  · rw [hdigits.1, hdigits.2]

theorem signPart_ofNat (n : Nat) (rest : Text) :
    signPart (Text.ofNat n ++ rest) = ([], Text.ofNat n ++ rest) := by
  obtain ⟨c, r, hc, hd, -⟩ := exists_ofNat n
  have hminus : c ≠ '-' := forall_digit (P := fun c => c ≠ '-') (by decide) hd
  unfold signPart
  split
  · next heq =>
    rw [hc, List.cons_append] at heq
    exact absurd (List.cons.inj heq).1 hminus
  · rfl

theorem fractionPart_of_closes (hr : Closes rest) : fractionPart rest = ([], rest) := by
  cases rest with
  | nil => rfl
  | cons c r => rcases hr c rfl with rfl | rfl | rfl | rfl <;> rfl

theorem exponentPart_of_closes (hr : Closes rest) : exponentPart rest = ([], rest) := by
  cases rest with
  | nil => rfl
  | cons c r => rcases hr c rfl with rfl | rfl | rfl | rfl <;> rfl

/-- An integer is read up to where it ends. -/
theorem readNumber_ofInt {n : Int} (h : isLongInteger n = false) (hr : Closes rest) :
    readNumber (Text.ofInt n ++ rest) = .ok (.int n, rest) := by
  obtain ⟨sign, hsign, htext⟩ : ∃ sign, Text.ofInt n = sign ++ Text.ofNat n.natAbs
      ∧ signPart (Text.ofInt n ++ rest) = (sign, Text.ofNat n.natAbs ++ rest) := by
    rw [Text.ofInt]
    split
    · exact ⟨['-'], rfl, rfl⟩
    · exact ⟨[], rfl, signPart_ofNat _ _⟩
  have hne : ¬(Text.ofNat n.natAbs).isEmpty = true := by simpa using ofNat_ne_nil n.natAbs
  simp only [readNumber, htext, wholePart_ofNat _ hr, if_neg hne, fractionPart_of_closes hr,
    exponentPart_of_closes hr, List.isEmpty_nil, and_self, if_true, ← hsign, integer?_ofInt h]

/-! ## What a value begins with -/

/-- Whether a text begins as a value can: neither with space nor with a bracket that closes, nor
with a byte order mark. -/
def Opens (text : Text) : Prop :=
  ∃ c r, text = c :: r ∧ isSpace c = false ∧ c ≠ ']' ∧ c ≠ '\x7d' ∧ c ≠ '\uFEFF'

theorem Opens.append {text : Text} (h : Opens text) (rest : Text) : Opens (text ++ rest) := by
  obtain ⟨c, r, rfl, hc⟩ := h
  exact ⟨c, r ++ rest, rfl, hc⟩

theorem opens_quote (t : Text) : Opens (quote true t) := ⟨'"', _, rfl, by decide⟩

/-- Space before what a value can begin with is passed over. -/
theorem skipSpace_opens {gap text : Text} (hg : ∀ c ∈ gap, isSpace c = true) (h : Opens text) :
    skipSpace (gap ++ text) = text := by
  obtain ⟨c, r, rfl, hc, -⟩ := h
  exact skipSpace_append hg hc r

theorem opens_ofInt (n : Int) : Opens (Text.ofInt n) := by
  rw [Text.ofInt]
  split
  · exact ⟨'-', _, rfl, by decide⟩
  · obtain ⟨c, r, hc, hd, -⟩ := exists_ofNat n.natAbs
    exact ⟨c, r, hc, forall_digit
      (P := fun c => isSpace c = false ∧ c ≠ ']' ∧ c ≠ '\x7d' ∧ c ≠ '\uFEFF') (by decide) hd⟩

/-- What is written of a value begins as a value can. -/
theorem opens_renderAt {found : Json} (h : found.IsWhole) (indent : Option Nat) (depth : Nat) :
    Opens (renderAt indent depth found) := by
  cases h with
  | null => exact ⟨'n', _, rfl, by decide⟩
  | bool b => cases b with
    | false => exact ⟨'f', _, rfl, by decide⟩
    | true => exact ⟨'t', _, rfl, by decide⟩
  | int n =>
    rw [renderAt]
    exact opens_ofInt n
  | string t =>
    rw [renderAt]
    exact opens_quote t
  | @array items _ => cases items with
    | nil => exact ⟨'[', _, rfl, by decide⟩
    | cons item items => exact ⟨'[', _, rfl, by decide⟩
  | @object fields _ => cases fields with
    | nil => exact ⟨'\x7b', _, rfl, by decide⟩
    | cons field fields => exact ⟨'\x7b', _, rfl, by decide⟩

/-! ## Values -/

/-- Whether a value is read from its text at a depth, up to where it ends. -/
def Reads (indent : Option Nat) (depth : Nat) (found : Json) : Prop :=
  ∀ budget rest, (renderAt indent depth found).length < budget → Closes rest →
    value budget (renderAt indent depth found ++ rest) = .ok (found, rest)

theorem value_word {c : Char} {text : Text} (hq : c ≠ '"') (ho : c ≠ '\x7b') (ha : c ≠ '[') :
    value (budget + 1) (c :: text) = readWord (c :: text) := by
  rw [value.eq_def]
  dsimp only
  split
  · next heq => exact absurd (List.cons.inj heq).1 hq
  · next heq => exact absurd (List.cons.inj heq).1 ho
  · next heq => exact absurd (List.cons.inj heq).1 ha
  · rfl

theorem reads_int {n : Int} (h : isLongInteger n = false) : Reads indent depth (.int n) := by
  intro budget rest hb hr
  cases budget with
  | zero => cases hb
  | succ budget =>
    rw [← readNumber_ofInt h hr, renderAt, Text.ofInt]
    obtain ⟨c, r, hc, hd, -⟩ := exists_ofNat n.natAbs
    have hne : c ≠ '"' ∧ c ≠ '\x7b' ∧ c ≠ '[' :=
      forall_digit (P := fun c => c ≠ '"' ∧ c ≠ '\x7b' ∧ c ≠ '[') (by decide) hd
    rw [hc]
    split
    · exact (value_word (by decide) (by decide) (by decide)).trans (readWord_digit hd _).2
    · exact (value_word hne.1 hne.2.1 hne.2.2).trans (readWord_digit hd _).1

theorem reads_string (t : Text) : Reads indent depth (.string t) := by
  intro budget rest hb _
  cases budget with
  | zero => cases hb
  | succ budget =>
    obtain ⟨inside, hquote, hread⟩ := readText_quote true t rest
    rw [renderAt, hquote]
    simp only [value, hread, bind, Except.bind]

/-! ## Items -/

theorem items_last {found : Json} {text gap : Text}
    (hv : value budget text = .ok (found, gap ++ ']' :: rest)) (hg : ∀ c ∈ gap, isSpace c = true)
    (done : List Json) :
    items (budget + 1) done text = .ok (.array (found :: done).reverse, rest) := by
  simp only [items, hv, bind, Except.bind, skipSpace_append hg (c := ']') rfl]

theorem items_comma {found : Json} {text gap more : Text}
    (hv : value budget text = .ok (found, ',' :: (gap ++ more)))
    (hg : ∀ c ∈ gap, isSpace c = true) (hm : Opens more) (done : List Json) :
    items (budget + 1) done text = items budget (found :: done) more := by
  have hcomma : skipSpace (',' :: (gap ++ more)) = ',' :: (gap ++ more) := rfl
  simp only [items, hv, bind, Except.bind, hcomma, skipSpace_opens hg hm]

theorem value_array {gap text : Text} (hg : ∀ c ∈ gap, isSpace c = true) (h : Opens text) :
    value (budget + 1) ('[' :: (gap ++ text)) = items budget [] text := by
  have hskip := skipSpace_opens hg h
  obtain ⟨c, r, rfl, -, hc, -⟩ := h
  simp only [value, hskip]
  split
  · next heq => exact absurd (List.cons.inj heq).1 hc
  · rfl

/-- What is written of more than one item, with the comma and the space after it. -/
theorem renderItems_cons (indent : Option Nat) (depth : Nat) (item next : Json) (list : List Json) :
    ∃ gap, (∀ c ∈ gap, isSpace c = true) ∧ renderItems indent depth (item :: next :: list)
      = renderAt indent depth item ++ ',' :: (gap ++ renderItems indent depth (next :: list)) := by
  obtain ⟨gap, hsep, hgap⟩ := separatorAt_eq indent depth
  refine ⟨gap, hgap, ?_⟩
  rw [renderItems, hsep, List.append_assoc, List.cons_append]
  exact fun h => absurd h (List.cons_ne_nil next list)

theorem opens_renderItems {item : Json} (h : item.IsWhole) (list : List Json) :
    Opens (renderItems indent depth (item :: list)) := by
  cases list with
  | nil =>
    rw [renderItems]
    exact opens_renderAt h indent depth
  | cons next list =>
    obtain ⟨gap, -, hrender⟩ := renderItems_cons indent depth item next list
    rw [hrender]
    exact (opens_renderAt h indent depth).append _

/-- Items are read one by one up to the bracket, so the induction is on those still to come. -/
theorem items_renderItems (outer : Nat) (rest : Text) {list : List Json} (hne : list ≠ [])
    (hw : ∀ item ∈ list, IsWhole item) (hread : ∀ item ∈ list, Reads indent depth item)
    (hb : (renderItems indent depth list).length + 1 < budget) (done : List Json) :
    items budget done (renderItems indent depth list ++ (lineAt indent outer ++ ']' :: rest))
      = .ok (.array (done.reverse ++ list), rest) := by
  induction list generalizing budget done with
  | nil => exact absurd rfl hne
  | cons item list ih =>
    cases budget with
    | zero => cases hb
    | succ budget =>
      have hfirst := hread item List.mem_cons_self budget
      cases list with
      | nil =>
        rw [renderItems] at hb ⊢
        have hv := hfirst (lineAt indent outer ++ ']' :: rest) (by omega)
          (closes_lineAt indent outer (closes_bracket rest))
        rw [items_last hv (isSpace_lineAt indent outer), List.reverse_cons]
      | cons next list =>
        obtain ⟨gap, hgap, hrender⟩ := renderItems_cons indent depth item next list
        have hopen : Opens (renderItems indent depth (next :: list)
            ++ (lineAt indent outer ++ ']' :: rest)) :=
          (opens_renderItems (hw next (by simp)) list).append _
        rw [hrender] at hb ⊢
        simp only [List.length_append, List.length_cons] at hb
        have hv := hfirst (',' :: (gap ++ (renderItems indent depth (next :: list)
          ++ (lineAt indent outer ++ ']' :: rest)))) (by omega) (closes_comma _)
        have hshort : (renderItems indent depth (next :: list)).length + 1 < budget := by omega
        have hmore := ih (List.cons_ne_nil next list) (fun i hi => hw i (List.mem_cons_of_mem _ hi))
          (fun i hi => hread i (List.mem_cons_of_mem _ hi)) hshort (item :: done)
        rw [List.append_assoc, List.cons_append, List.append_assoc, items_comma hv hgap hopen,
          hmore, List.reverse_cons, List.append_assoc]
        rfl

theorem reads_array {list : List Json} (hw : ∀ item ∈ list, IsWhole item)
    (hread : ∀ item ∈ list, Reads indent (depth + 1) item) : Reads indent depth (.array list) := by
  intro budget rest hb _
  cases budget with
  | zero => cases hb
  | succ budget =>
    cases list with
    | nil => rfl
    | cons item list =>
      have hrender : renderAt indent depth (.array (item :: list))
          = '[' :: (lineAt indent (depth + 1) ++ (renderItems indent (depth + 1) (item :: list)
            ++ (lineAt indent depth ++ [']']))) := by
        rw [renderAt]
        · simp only [List.cons_append, List.append_assoc]
        · exact fun h => absurd h (List.cons_ne_nil item list)
      have hopen : Opens (renderItems indent (depth + 1) (item :: list)
          ++ (lineAt indent depth ++ ']' :: rest)) :=
        (opens_renderItems (hw item List.mem_cons_self) list).append _
      rw [hrender] at hb ⊢
      simp only [List.length_append, List.length_cons] at hb
      simp only [List.cons_append, List.append_assoc, List.nil_append]
      rw [value_array (isSpace_lineAt indent (depth + 1)) hopen]
      exact items_renderItems depth rest (List.cons_ne_nil item list) hw hread (by omega) []

/-! ## Fields -/

/-- A field with its name. -/
def named (key : Text) (text : Text) : Text := quote true key ++ ':' :: ' ' :: text

theorem named_append (key a b : Text) : named key a ++ b = named key (a ++ b) := by
  simp only [named, List.append_assoc, List.cons_append]

theorem opens_named (key text : Text) : Opens (named key text) := (opens_quote key).append _

/-- The name of a field is read with the colon and the space after it. -/
theorem exists_named (key : Text) {text : Text} (h : Opens text) :
    ∃ inside, named key text = '"' :: inside ∧ readText inside = .ok (key, ':' :: ' ' :: text)
      ∧ skipSpace (' ' :: text) = text := by
  obtain ⟨inside, hquote, hread⟩ := readText_quote true key (':' :: ' ' :: text)
  exact ⟨inside, hquote, hread, skipSpace_opens (by decide : ∀ c ∈ [' '], isSpace c = true) h⟩

theorem members_last {found : Json} {text gap : Text} (h : Opens text)
    (hv : value budget text = .ok (found, gap ++ '\x7d' :: rest))
    (hg : ∀ c ∈ gap, isSpace c = true) (key : Text) (done : Table Json) :
    members (budget + 1) done (named key text) = .ok (.object (done.insert key found), rest) := by
  obtain ⟨inside, hnamed, hread, hskip⟩ := exists_named key h
  have hcolon : skipSpace (':' :: ' ' :: text) = ':' :: ' ' :: text := rfl
  rw [hnamed]
  simp only [members, hread, hcolon, hskip, hv, bind, Except.bind,
    skipSpace_append hg (c := '\x7d') rfl]

theorem members_comma {found : Json} {text gap more : Text} (h : Opens text)
    (hv : value budget text = .ok (found, ',' :: (gap ++ more)))
    (hg : ∀ c ∈ gap, isSpace c = true) (hm : Opens more) (key : Text) (done : Table Json) :
    members (budget + 1) done (named key text) = members budget (done.insert key found) more := by
  obtain ⟨inside, hnamed, hread, hskip⟩ := exists_named key h
  have hcolon : skipSpace (':' :: ' ' :: text) = ':' :: ' ' :: text := rfl
  have hcomma : skipSpace (',' :: (gap ++ more)) = ',' :: (gap ++ more) := rfl
  rw [hnamed]
  simp only [members, hread, hcolon, hskip, hv, bind, Except.bind, hcomma, skipSpace_opens hg hm]

theorem value_object {gap text : Text} (hg : ∀ c ∈ gap, isSpace c = true) (h : Opens text) :
    value (budget + 1) ('\x7b' :: (gap ++ text)) = members budget [] text := by
  have hskip := skipSpace_opens hg h
  obtain ⟨c, r, rfl, -, -, hc, -⟩ := h
  simp only [value, hskip]
  split
  · next heq => exact absurd (List.cons.inj heq).1 hc
  · rfl

theorem renderFields_one (key : Text) (found : Json) :
    renderFields indent depth [(key, found)] = named key (renderAt indent depth found) := by
  rw [renderFields, named]

/-- What is written of more than one field, with the comma and the space after it. -/
theorem renderFields_cons (indent : Option Nat) (depth : Nat) (key : Text) (found : Json)
    (next : Text × Json) (fields : List (Text × Json)) :
    ∃ gap, (∀ c ∈ gap, isSpace c = true) ∧ renderFields indent depth ((key, found) :: next :: fields)
      = named key (renderAt indent depth found
          ++ ',' :: (gap ++ renderFields indent depth (next :: fields))) := by
  obtain ⟨gap, hsep, hgap⟩ := separatorAt_eq indent depth
  refine ⟨gap, hgap, ?_⟩
  rw [renderFields, hsep, named]
  · simp only [List.append_assoc, List.cons_append]
  · exact fun h => absurd h (List.cons_ne_nil next fields)

theorem opens_renderFields (field : Text × Json) (fields : List (Text × Json)) :
    Opens (renderFields indent depth (field :: fields)) := by
  obtain ⟨key, found⟩ := field
  cases fields with
  | nil =>
    rw [renderFields_one]
    exact opens_named _ _
  | cons next fields =>
    obtain ⟨gap, -, hrender⟩ := renderFields_cons indent depth key found next fields
    rw [hrender]
    exact opens_named _ _

/-- Fields are read one by one up to the brace; each of them is new, so it comes after those read
before it. -/
theorem members_renderFields (outer : Nat) (rest : Text) {fields : List (Text × Json)}
    (hne : fields ≠ []) (hw : ∀ field ∈ fields, IsWhole field.2)
    (hread : ∀ field ∈ fields, Reads indent depth field.2)
    (hb : (renderFields indent depth fields).length + 1 < budget) {done : Table Json}
    (hd : (Table.keys (done ++ fields)).Nodup) :
    members budget done
        (renderFields indent depth fields ++ (lineAt indent outer ++ '\x7d' :: rest))
      = .ok (.object (done ++ fields), rest) := by
  induction fields generalizing budget done with
  | nil => exact absurd rfl hne
  | cons field fields ih =>
    obtain ⟨key, found⟩ := field
    cases budget with
    | zero => cases hb
    | succ budget =>
      have hfirst : ∀ rest, (renderAt indent depth found).length < budget → Closes rest →
          value budget (renderAt indent depth found ++ rest) = .ok (found, rest) :=
        hread (key, found) List.mem_cons_self budget
      have hopen := opens_renderAt (hw (key, found) List.mem_cons_self) indent depth
      have hinsert : done.insert key found = done ++ [(key, found)] := by
        refine Table.insert_of_not_mem (fun hm => ?_) found
        rw [Table.keys, List.map_append, List.nodup_append] at hd
        exact hd.2.2 key hm key List.mem_cons_self rfl
      cases fields with
      | nil =>
        rw [renderFields_one] at hb ⊢
        simp only [named, List.length_append, List.length_cons] at hb
        have hv := hfirst (lineAt indent outer ++ '\x7d' :: rest) (by omega)
          (closes_lineAt indent outer (closes_brace rest))
        rw [named_append, members_last (hopen.append _) hv (isSpace_lineAt indent outer), hinsert]
      | cons next fields =>
        obtain ⟨gap, hgap, hrender⟩ := renderFields_cons indent depth key found next fields
        have hnext : Opens (renderFields indent depth (next :: fields)
            ++ (lineAt indent outer ++ '\x7d' :: rest)) := (opens_renderFields next fields).append _
        rw [hrender] at hb ⊢
        simp only [named, List.length_append, List.length_cons] at hb
        have hv := hfirst (',' :: (gap ++ (renderFields indent depth (next :: fields)
          ++ (lineAt indent outer ++ '\x7d' :: rest)))) (by omega) (closes_comma _)
        have hshort : (renderFields indent depth (next :: fields)).length + 1 < budget := by omega
        have happend : done ++ (key, found) :: next :: fields
            = (done ++ [(key, found)]) ++ next :: fields := by simp
        rw [happend] at hd ⊢
        have hmore := ih (List.cons_ne_nil next fields)
          (fun f hf => hw f (List.mem_cons_of_mem _ hf))
          (fun f hf => hread f (List.mem_cons_of_mem _ hf)) hshort hd
        rw [named_append, List.append_assoc, List.cons_append, List.append_assoc,
          members_comma (hopen.append _) hv hgap hnext, hinsert, hmore]

theorem reads_object {fields : List (Text × Json)} (hd : (Table.keys fields).Nodup)
    (hw : ∀ field ∈ fields, IsWhole field.2)
    (hread : ∀ field ∈ fields, Reads indent (depth + 1) field.2) :
    Reads indent depth (.object fields) := by
  intro budget rest hb _
  cases budget with
  | zero => cases hb
  | succ budget =>
    cases fields with
    | nil => rfl
    | cons field fields =>
      have hrender : renderAt indent depth (.object (field :: fields))
          = '\x7b' :: (lineAt indent (depth + 1) ++ (renderFields indent (depth + 1)
            (field :: fields) ++ (lineAt indent depth ++ ['\x7d']))) := by
        rw [renderAt]
        · simp only [List.cons_append, List.append_assoc]
        · exact fun h => absurd h (List.cons_ne_nil field fields)
      have hopen : Opens (renderFields indent (depth + 1) (field :: fields)
          ++ (lineAt indent depth ++ '\x7d' :: rest)) := (opens_renderFields field fields).append _
      rw [hrender] at hb ⊢
      simp only [List.length_append, List.length_cons] at hb
      simp only [List.cons_append, List.append_assoc, List.nil_append]
      rw [value_object (isSpace_lineAt indent (depth + 1)) hopen]
      exact members_renderFields depth rest (List.cons_ne_nil field fields) hw hread (by omega) hd

/-! ## Whole texts -/

/-- Data without fractions is read from its text, at every depth. -/
theorem reads_of_isData {found : Json} (hd : found.IsData) (hw : found.IsWhole)
    (indent : Option Nat) (depth : Nat) : Reads indent depth found := by
  have word {depth : Nat} {text : Text} {j : Json} (hj : renderAt indent depth j = text)
      (hword : ∀ budget rest, value (budget + 1) (text ++ rest) = .ok (j, rest)) :
      Reads indent depth j := by
    intro budget rest hb _
    cases budget with
    | zero => cases hb
    | succ budget => exact hj ▸ hword budget rest
  induction hd generalizing depth with
  | null => exact word rfl fun _ _ => rfl
  | bool b => cases b with
    | false => exact word rfl fun _ _ => rfl
    | true => exact word rfl fun _ _ => rfl
  | int short => exact reads_int short
  | float x => cases hw
  | string t => exact reads_string t
  | array each ih => cases hw with
    | array whole => exact reads_array whole fun item hi => ih item hi (whole item hi) (depth + 1)
  | object distinct each ih => cases hw with
    | object whole =>
      exact reads_object distinct whole fun field hf => ih field hf (whole field hf) (depth + 1)

/-- Data without fractions is read again from its text, at every indentation. -/
theorem parse_renderAt {found : Json} (hd : found.IsData) (hw : found.IsWhole)
    (indent : Option Nat) : parse (found.renderAt indent 0) = .ok found := by
  have hread := reads_of_isData hd hw indent 0 ((found.renderAt indent 0).length + 1) []
    (Nat.lt_succ_self _) fun c hc => absurd hc (by simp)
  have hopen := opens_renderAt hw indent 0
  have hskip : skipSpace (found.renderAt indent 0) = found.renderAt indent 0 :=
    skipSpace_opens (fun c hc => absurd hc List.not_mem_nil) hopen
  rw [List.append_nil] at hread
  obtain ⟨c, r, hc, -, -, -, hmark⟩ := hopen
  unfold parse
  split
  · next heq => exact absurd (List.cons.inj (hc.symm.trans heq)).1 hmark
  · rw [hskip]
    rw [hread]
    rfl

/-- A value with distinct keys and without fractions is written and read again, just if its integers
are short enough. -/
theorem parse_render_iff {found : Json} (hd : found.HasDistinctKeys) (hw : found.IsWhole)
    (indent : Option Nat) :
    (∃ text, found.render indent = some text ∧ parse text = .ok found) ↔ found.isShort = true := by
  constructor
  · rintro ⟨text, htext, -⟩
    by_contra hlong
    rw [render_eq_none_iff.2 hlong] at htext
    cases htext
  · intro hs
    exact ⟨_, if_pos hs, parse_renderAt (hd.isData hs) hw indent⟩

/-! ## What is read -/

theorem isData_readNumber {text : Text} {found : Json} (h : readNumber text = .ok (found, rest)) :
    found.IsData := by
  unfold readNumber at h
  dsimp only at h
  split at h
  · cases h
  split at h
  · split at h
    · next hn => cases h; exact .int (isLongInteger_of_integer? hn)
    · cases h
  · split at h
    · cases h; exact .float _
    · cases h

theorem isData_readWord {text : Text} {found : Json} (h : readWord text = .ok (found, rest)) :
    found.IsData := by
  unfold readWord at h
  split at h
  · next hword =>
    cases h
    obtain ⟨⟨word, value⟩, hmem, hafter⟩ := List.exists_of_findSome?_eq_some hword
    obtain ⟨_, -, hpair⟩ := Option.map_eq_some_iff.1 hafter
    obtain ⟨rfl, -⟩ := Prod.mk.inj hpair
    simp only [words, List.mem_cons, Prod.mk.injEq, List.not_mem_nil, or_false] at hmem
    rcases hmem with ⟨-, rfl⟩ | ⟨-, rfl⟩ | ⟨-, rfl⟩ | ⟨-, rfl⟩ | ⟨-, rfl⟩ | ⟨-, rfl⟩
    · exact .null
    · exact .bool true
    · exact .bool false
    all_goals exact .float _
  · exact isData_readNumber h

/-- What a reader is given of a table stays data with one field more. -/
theorem isData_insert {done : Table Json} (hd : (Json.object done).IsData) {found : Json}
    (hf : found.IsData) (key : Text) : (Json.object (done.insert key found)).IsData := by
  cases hd with
  | object distinct each =>
    refine .object (Table.nodup_insert distinct key found) fun field h => ?_
    rcases Table.of_mem_insert h with h | rfl
    · exact each field h
    · exact hf

theorem isData_nil : (Json.object []).IsData :=
  .object List.nodup_nil fun _ h => absurd h List.not_mem_nil

/-- With a budget, each of the three readers reads nothing but data, where what the other two were
given is data. -/
structure ReadsData (budget : Nat) : Prop where
  value : ∀ {text found rest}, value budget text = .ok (found, rest) → IsData found
  members : ∀ {done text found rest}, IsData (.object done) →
    members budget done text = .ok (found, rest) → IsData found
  items : ∀ {done text found rest}, (∀ item ∈ done, IsData item) →
    items budget done text = .ok (found, rest) → IsData found

theorem ReadsData.value_succ {budget : Nat} (ih : ReadsData budget) {text : Text} {found : Json}
    (h : Json.value (budget + 1) text = .ok (found, rest)) : found.IsData := by
  rw [Json.value.eq_def] at h
  dsimp only at h
  split at h
  · obtain ⟨body, -, h⟩ := exists_of_bind h
    cases h
    exact .string _
  · split at h
    · cases h
      exact isData_nil
    · exact ih.members isData_nil h
  · split at h
    · cases h
      exact .array fun _ hi => absurd hi List.not_mem_nil
    · exact ih.items (fun _ hi => absurd hi List.not_mem_nil) h
  · exact isData_readWord h

theorem ReadsData.members_succ {budget : Nat} (ih : ReadsData budget) {done : Table Json}
    {text : Text} {found : Json} (hdone : (Json.object done).IsData)
    (h : Json.members (budget + 1) done text = .ok (found, rest)) : found.IsData := by
  rw [Json.members.eq_def] at h
  dsimp only at h
  split at h
  · obtain ⟨key, -, h⟩ := exists_of_bind h
    split at h
    · obtain ⟨field, hfield, h⟩ := exists_of_bind h
      have hmore := isData_insert hdone (ih.value hfield) key.1
      split at h
      · cases h
        exact hmore
      · exact ih.members hmore h
      · cases h
    · cases h
  · cases h

theorem ReadsData.items_succ {budget : Nat} (ih : ReadsData budget) {done : List Json}
    {text : Text} {found : Json} (hdone : ∀ item ∈ done, IsData item)
    (h : Json.items (budget + 1) done text = .ok (found, rest)) : found.IsData := by
  rw [Json.items.eq_def] at h
  obtain ⟨item, hitem, h⟩ := exists_of_bind h
  have hmore : ∀ i ∈ item.1 :: done, IsData i := fun i hi =>
    (List.mem_cons.1 hi).elim (fun he => he ▸ ih.value hitem) (hdone i)
  dsimp only at h
  split at h
  · cases h
    exact .array fun i hi => hmore i (List.mem_reverse.1 hi)
  · exact ih.items hmore h
  · cases h

/-- The three readers call one another with a smaller budget, so what they read is data by one
induction on the budget. -/
theorem readsData (budget : Nat) : ReadsData budget := by
  induction budget with
  | zero =>
    refine ⟨fun h => ?_, fun _ h => ?_, fun _ h => ?_⟩ <;> cases h
  | succ budget ih => exact ⟨ih.value_succ, ih.members_succ, ih.items_succ⟩

/-- What is read is data. -/
theorem isData_parse {text : Text} {found : Json} (h : parse text = .ok found) : found.IsData := by
  unfold parse at h
  split at h
  · cases h
  · obtain ⟨r, hr, h⟩ := exists_of_bind h
    dsimp only at h
    split at h
    · cases h
      exact (readsData _).value hr
    · cases h

end ModernControls.Json
