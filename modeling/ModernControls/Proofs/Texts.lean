import ModernControls.Text.Blank

/-!
# Parts of texts

What is left of a text when it is cut or trimmed and there is nothing to take away, and what a
trimmed text begins with.

Results:
- `cut_append`: a text is cut at the first occurrence of a character;
- `trimEnd_eq`: a text that does not end with a blank stays;
- `pairsToFeeds_eq`: so does one without carriage returns when its breaks are unified;
- `head_trim`: a trimmed text does not begin with a blank.
-/
namespace ModernControls.Text

/-- A text for each member of a list, none of them empty, makes no fewer characters than members. -/
theorem length_le_flatMap {α : Type} {f : α → Text} {l : List α} (h : ∀ a ∈ l, f a ≠ []) :
    l.length ≤ (l.flatMap f).length := by
  induction l with
  | nil => simp
  | cons a l ih =>
    have ha := List.length_pos_iff.2 (h a List.mem_cons_self)
    have := ih fun b hb => h b (List.mem_cons_of_mem _ hb)
    rw [List.flatMap_cons, List.length_append, List.length_cons]
    omega

theorem cut_of_not_mem {s : Char} {t : Text} (h : s ∉ t) : cut s t = (t, none) := by
  induction t with
  | nil => rfl
  | cons c t ih =>
    rw [cut, if_neg fun hc : c = s => h (hc ▸ List.mem_cons_self),
      ih fun hm => h (List.mem_cons_of_mem _ hm)]

/-- A text without the separator is its own only piece. -/
theorem split_of_not_mem {s : Char} {t : Text} (h : s ∉ t) : split s t = [t] := by
  have hone : (split s t).length = 1 := by
    rw [length_split, List.count_eq_zero_of_not_mem h]
  obtain ⟨piece, hp⟩ := List.length_eq_one_iff.1 hone
  have hjoin := join_split s t
  rw [hp] at hjoin
  rw [hp, show piece = t from hjoin]

theorem cut_append {s : Char} {a : Text} (h : s ∉ a) (b : Text) :
    cut s (a ++ s :: b) = (a, some b) := by
  induction a with
  | nil => simp [cut]
  | cons c a ih =>
    rw [List.cons_append, cut, if_neg fun hc : c = s => h (hc ▸ List.mem_cons_self),
      ih fun hm => h (List.mem_cons_of_mem _ hm)]

/-- What is cut off ends before the first occurrence. -/
theorem not_mem_of_cut {s : Char} {t a : Text} {b : Option Text} (h : cut s t = (a, b)) : s ∉ a := by
  induction t generalizing a b with
  | nil =>
    obtain ⟨rfl, -⟩ := Prod.mk.inj h
    exact List.not_mem_nil
  | cons c t ih =>
    rw [cut] at h
    split at h
    · obtain ⟨rfl, -⟩ := Prod.mk.inj h
      exact List.not_mem_nil
    · next hc =>
      obtain ⟨rfl, -⟩ := Prod.mk.inj h
      rw [List.mem_cons, not_or]
      exact ⟨Ne.symm hc, ih rfl⟩

/-- A run of characters ends at the first one of another kind. -/
theorem takeWhile_run {p : Char → Bool} {t : Text} (h : ∀ c ∈ t, p c = true) {c : Char}
    (hc : p c = false) (r : Text) :
    (t ++ c :: r).takeWhile p = t ∧ (t ++ c :: r).dropWhile p = c :: r := by
  rw [List.takeWhile_append_of_pos h, List.dropWhile_append_of_pos h]
  simp [hc]

theorem split_append {s : Char} {a : Text} (h : s ∉ a) (b : Text) :
    split s (a ++ s :: b) = a :: split s b := by
  induction a with
  | nil => rw [List.nil_append, split, if_pos rfl]
  | cons c a ih =>
    rw [List.cons_append, split, if_neg fun hc : c = s => h (hc ▸ List.mem_cons_self),
      ih fun hm => h (List.mem_cons_of_mem _ hm)]

theorem ofLines_cons (l : Text) {ls : List Text} (h : ls ≠ []) :
    ofLines (l :: ls) = l ++ '\n' :: ofLines ls := by
  obtain ⟨m, ls, rfl⟩ := List.exists_cons_of_ne_nil h
  exact List.append_assoc l [lineFeed] (ofLines (m :: ls))

/-- Lines with further lines below them. -/
theorem ofLines_above {ls ms : List Text} (hl : ls ≠ []) (hm : ms ≠ []) :
    ofLines (ls ++ ms) = ofLines ls ++ '\n' :: ofLines ms := by
  induction ls with
  | nil => exact absurd rfl hl
  | cons l ls ih =>
    cases ls with
    | nil => exact ofLines_cons l hm
    | cons k ls =>
      rw [List.cons_append, ofLines_cons l (by simp), ih (by simp), ofLines_cons l (by simp)]
      simp

/-- A text begins with its first line. -/
theorem exists_ofLines (l : Text) (ls : List Text) : ∃ r, ofLines (l :: ls) = l ++ r := by
  cases ls with
  | nil => exact ⟨[], (List.append_nil l).symm⟩
  | cons k ls => exact ⟨_, ofLines_cons l (by simp)⟩

theorem not_mem_ofLines {c : Char} (hc : c ≠ '\n') {ls : List Text} (h : ∀ l ∈ ls, c ∉ l) :
    c ∉ ofLines ls := by
  induction ls with
  | nil => exact List.not_mem_nil
  | cons l ls ih =>
    have hl := h l List.mem_cons_self
    cases ls with
    | nil => exact hl
    | cons k ls =>
      rw [ofLines_cons l (by simp), List.mem_append, List.mem_cons, not_or, not_or]
      exact ⟨hl, hc, ih fun m hm => h m (List.mem_cons_of_mem _ hm)⟩

/-- Lines are found again in their text. -/
theorem lines_ofLines {ls : List Text} (hne : ls ≠ []) (h : ∀ l ∈ ls, '\n' ∉ l) :
    (ofLines ls).lines = ls := by
  induction ls with
  | nil => exact absurd rfl hne
  | cons l ls ih =>
    have hl := h l List.mem_cons_self
    cases ls with
    | nil => exact split_of_not_mem hl
    | cons m ls =>
      have hrest := ih (List.cons_ne_nil m ls) fun x hx => h x (List.mem_cons_of_mem _ hx)
      rw [ofLines_cons l (List.cons_ne_nil m ls), lines, split_append hl, ← lines, hrest]

theorem unifyBreaks_eq {t : Text} (h : '\r' ∉ t) : t.unifyBreaks = t := by
  induction t with
  | nil => rfl
  | cons c t ih =>
    simp only [List.mem_cons, not_or] at h
    rw [unifyBreaks.eq_def]
    split
    · next heq => exact absurd (List.cons.inj heq).1.symm h.1
    · next heq => exact absurd (List.cons.inj heq).1.symm h.1
    · next heq =>
      obtain ⟨rfl, rfl⟩ := List.cons.inj heq
      rw [ih h.2]
    · next heq => cases heq

/-- Where no carriage return stands alone, every break is unified if the pairs are. -/
theorem unifyBreaks_of_pairsToFeeds {t : Text} (h : '\r' ∉ t.pairsToFeeds) :
    t.unifyBreaks = t.pairsToFeeds := by
  fun_induction pairsToFeeds t with
  | case1 rest ih =>
    rw [List.mem_cons, not_or] at h
    rw [unifyBreaks, ih h.2]
  | case2 c rest hpair ih =>
    rw [List.mem_cons, not_or] at h
    rw [unifyBreaks.eq_def]
    split
    · next heq => exact absurd (List.cons.inj heq).1.symm h.1
    · next heq => exact absurd (List.cons.inj heq).1.symm h.1
    · next heq =>
      obtain ⟨rfl, rfl⟩ := List.cons.inj heq
      rw [ih h.2]
    · next heq => cases heq
  | case3 => rfl

theorem pairsToFeeds_eq {t : Text} (h : '\r' ∉ t) : t.pairsToFeeds = t := by
  fun_induction pairsToFeeds t with
  | case1 rest ih => exact absurd List.mem_cons_self h
  | case2 c rest hpair ih => rw [ih fun hm => h (List.mem_cons_of_mem _ hm)]
  | case3 => rfl

theorem after?_append (start r : Text) : after? start (start ++ r) = some r := by
  induction start with
  | nil => rfl
  | cons c start ih => rw [List.cons_append, after?, if_pos rfl, ih]

/-- What is found behind a text stands behind it. -/
theorem eq_append_of_after? {start text rest : Text} (h : after? start text = some rest) :
    text = start ++ rest := by
  induction start generalizing text with
  | nil => exact Option.some.inj h
  | cons d start ih =>
    cases text with
    | nil => cases h
    | cons c text =>
      rw [after?] at h
      split at h
      · next hc => rw [hc, ih h, List.cons_append]
      · cases h

theorem not_isSpaceOrTab {c : Char} (h : isBlank c = false) : isSpaceOrTab c = false := by
  refine Bool.eq_false_iff.2 fun hs => ?_
  simp only [isSpaceOrTab, Bool.or_eq_true, decide_eq_true_eq] at hs
  rcases hs with rfl | rfl <;> exact absurd h (by decide)

theorem isBlank_spaces (n : Nat) : ∀ c ∈ spaces n, isBlank c = true := fun c hc => by
  rw [List.eq_of_mem_replicate hc]
  decide

theorem trimStart_spaces (n : Nat) {c : Char} (hc : isBlank c = false) (r : Text) :
    trimStart (spaces n ++ c :: r) = c :: r := (takeWhile_run (isBlank_spaces n) hc r).2

theorem mem_of_mem_trimEnd {t : Text} {c : Char} (h : c ∈ t.trimEnd) : c ∈ t := by
  rw [trimEnd, dropEndWhile, List.mem_reverse] at h
  exact List.mem_reverse.1 ((List.dropWhile_sublist _).mem h)

theorem trimEnd_eq {t : Text} (h : ∀ c ∈ t.getLast?, isBlank c = false) : t.trimEnd = t := by
  rw [trimEnd, dropEndWhile]
  cases hr : t.reverse with
  | nil => simpa using hr.symm
  | cons c r =>
    have hc : t.getLast? = some c := by rw [List.getLast?_eq_head?_reverse, hr]; rfl
    rw [List.dropWhile_cons, if_neg (by simp [h c hc]), ← hr, List.reverse_reverse]

/-- What holds of a character and of the last one behind it holds of the last of all. -/
theorem forall_getLast_append {P : Char → Prop} {c : Char} (hc : P c) {t : Text}
    (ht : ∀ d ∈ t.getLast?, P d) (s : Text) : ∀ d ∈ (s ++ c :: t).getLast?, P d := by
  intro d hd
  cases t with
  | nil =>
    obtain rfl : c = d := by simpa using hd
    exact hc
  | cons e t => exact ht d (by simpa [List.getLast?_append, List.getLast?_cons] using hd)

theorem trimEnd_append {c : Char} (h : isBlank c = false) (t : Text) :
    trimEnd (t ++ [c]) = t ++ [c] :=
  trimEnd_eq fun d hd => by
    obtain rfl : c = d := by simpa using hd
    exact h

/-- What is left begins as the text does. -/
theorem head_trimEnd {t : Text} (h : t.trimEnd ≠ []) : t.trimEnd.head? = t.head? := by
  have hsplit : t = t.trimEnd ++ (t.reverse.takeWhile isBlank).reverse := by
    rw [trimEnd, dropEndWhile, ← List.reverse_append, List.takeWhile_append_dropWhile,
      List.reverse_reverse]
  obtain ⟨c, r, hc⟩ := List.exists_cons_of_ne_nil h
  rw [hc] at hsplit
  have hhead : t.head? = some c := by
    rw [hsplit]
    rfl
  rw [hc, hhead]
  rfl

theorem strip_eq {p : Char → Bool} {t : Text} (h : ∀ c ∈ t, p c = false) : t.strip p = t := by
  rw [Text.strip, Text.dropEndWhile]
  have hdrop : ∀ s : Text, (∀ c ∈ s, p c = false) → s.dropWhile p = s := fun s hs => by
    cases s with
    | nil => rfl
    | cons c s => rw [List.dropWhile_cons, if_neg (by simp [hs c List.mem_cons_self])]
  rw [hdrop t h, hdrop t.reverse fun c hc => h c (List.mem_reverse.1 hc), List.reverse_reverse]

theorem trimEnd_trimEnd (t : Text) : t.trimEnd.trimEnd = t.trimEnd := by
  have hidem : ∀ r : Text, (r.dropWhile isBlank).dropWhile isBlank = r.dropWhile isBlank :=
    trimStart_idem
  rw [trimEnd, trimEnd, dropEndWhile, dropEndWhile, List.reverse_reverse, hidem]

/-- A text without the blanks at its end does not end with a blank. -/
theorem getLast_trimEnd {t : Text} {c : Char} (h : c ∈ t.trimEnd.getLast?) : isBlank c = false := by
  rw [trimEnd, dropEndWhile, List.getLast?_reverse] at h
  cases hd : t.reverse.dropWhile isBlank with
  | nil => rw [hd] at h; cases h
  | cons d r =>
    rw [hd] at h
    exact Option.some.inj h ▸ not_isBlank_head_trimStart hd

/-- A text that does not begin with a blank has none to lose at its start. -/
theorem trimStart_eq {t : Text} (h : ∀ c ∈ t.head?, isBlank c = false) : t.trimStart = t := by
  cases t with
  | nil => rfl
  | cons c r => simp [trimStart, h c rfl]

theorem trimEnd_trim (t : Text) : t.trim.trimEnd = t.trim := trimEnd_trimEnd t.trimStart

/-- A trimmed text does not begin with a blank. -/
theorem head_trim {t : Text} {c : Char} (h : c ∈ t.trim.head?) : isBlank c = false := by
  have hne : t.trimStart.trimEnd ≠ [] := fun he => by
    rw [show t.trim = t.trimStart.trimEnd from rfl, he] at h
    cases h
  have hhead : t.trim.head? = t.trimStart.head? := head_trimEnd hne
  rw [hhead] at h
  obtain ⟨d, r, hd⟩ := List.exists_cons_of_ne_nil (l := t.trimStart) fun he => by
    rw [he] at h
    cases h
  rw [hd] at h
  exact Option.some.inj h ▸ not_isBlank_head_trimStart hd

end ModernControls.Text
