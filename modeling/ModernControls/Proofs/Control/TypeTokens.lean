import ModernControls.Conversion.Rules
import ModernControls.Proofs.Texts

/-!
# Parts of type tokens

A name and a version that are put together are found again, and the parts of a token put together
again are the token without blanks around it. What stands before the name and its version has no
say in the category of a type, and so none in its rule.

**Parts (`TypeToken.IsPart`).** A text that can be the name of a type or its version: it is not
empty, holds no version sign, and has no blanks at its ends.

**The bare sign (`TypeToken.withoutBareSign`).** A version sign without a version after it is lost
when a token is put together again, unless there is nothing before it.

Results:
- `Text.cutLast?_append`, `Text.exists_last`: a text is cut at the last occurrence of a character;
- `split_join`, `join_name_version`: taking apart what was put together, and the other way round;
- `category_join`, `ruleFor_congr`: the category of a type behind a slash, and so its rule;
- `parts_recovered`: these laws together.
-/
namespace ModernControls

namespace Text

theorem cutLast?_of_not_mem {s : Char} {t : Text} (h : s ∉ t) : cutLast? s t = none := by
  rw [cutLast?, cut_of_not_mem fun hm => h (List.mem_reverse.1 hm)]

theorem cutLast?_append {s : Char} {b : Text} (h : s ∉ b) (a : Text) :
    cutLast? s (a ++ s :: b) = some (a, b) := by
  have hreverse : (a ++ s :: b).reverse = b.reverse ++ s :: a.reverse := by simp
  rw [cutLast?, hreverse, cut_append fun hm => h (List.mem_reverse.1 hm)]
  simp

/-- A character that occurs has a last occurrence. -/
theorem exists_last {s : Char} {t : Text} (h : s ∈ t) : ∃ a b, t = a ++ s :: b ∧ s ∉ b := by
  obtain ⟨b, a, hreverse, hb⟩ := List.eq_append_cons_of_mem (List.mem_reverse.2 h)
  refine ⟨a.reverse, b.reverse, ?_, fun hm => hb (List.mem_reverse.1 hm)⟩
  rw [← List.reverse_reverse t, hreverse]
  simp

theorem trim_eq {t : Text} (hhead : ∀ c ∈ t.head?, isBlank c = false)
    (hlast : ∀ c ∈ t.getLast?, isBlank c = false) : t.trim = t := by
  have hsteps : t.trim = t.trimStart.trimEnd := rfl
  rw [hsteps, trimStart_eq hhead, trimEnd_eq hlast]

/-- A trimmed text does not end with a blank. -/
theorem getLast_trim {t : Text} {c : Char} (h : c ∈ t.trim.getLast?) : isBlank c = false :=
  getLast_trimEnd h

end Text

namespace TypeToken

/-- Whether a text can be the name of a type or its version. -/
structure IsPart (part : Text) : Prop where
  nonempty : part ≠ []
  unsigned : versionSign ∉ part
  trimmed : part.trim = part

/-- A token without the version sign that it ends with, if there is something before it. -/
def withoutBareSign (token : Text) : Text :=
  if token.getLast? = some versionSign ∧ 1 < token.length then token.dropLast else token

variable {name version : Text}

/-! ## Taking apart and putting together -/

theorem IsPart.head {part : Text} (h : IsPart part) : ∀ c ∈ part.head?, isBlank c = false :=
  fun _ hc => Text.head_trim (h.trimmed.symm ▸ hc)

theorem IsPart.last {part : Text} (h : IsPart part) : ∀ c ∈ part.getLast?, isBlank c = false :=
  fun _ hc => Text.getLast_trim (h.trimmed.symm ▸ hc)

theorem split_of_not_mem {token : Text} (h : versionSign ∉ token.trim) :
    split token = (token.trim, none) := by
  rw [split, Text.cutLast?_of_not_mem h]

theorem split_of_signed {token : Text} (h : token.trim = name ++ versionSign :: version)
    (hname : name ≠ []) (hv : versionSign ∉ version) :
    split token = (name, if version.isEmpty then none else some version) := by
  rw [split, h, Text.cutLast?_append hv]
  simp [hname]

theorem join_some (h : version ≠ []) (name : Text) :
    join name (some version) = name ++ versionSign :: version := by
  simp [join, h]

/-- A name and a version are found again. -/
theorem split_join (hname : IsPart name) {version : Option Text}
    (hversion : ∀ v ∈ version, IsPart v) : split (join name version) = (name, version) := by
  cases version with
  | none =>
    rw [join_none, split_of_not_mem (hname.trimmed.symm ▸ hname.unsigned), hname.trimmed]
  | some v =>
    have hv := hversion v rfl
    have htrim : (name ++ versionSign :: v).trim = name ++ versionSign :: v := by
      refine Text.trim_eq ?_ (Text.forall_getLast_append (by decide) hv.last name)
      obtain ⟨c, rest, rfl⟩ := List.exists_cons_of_ne_nil hname.nonempty
      exact hname.head
    rw [join_some hv.nonempty, split_of_signed htrim hname.nonempty hv.unsigned]
    simp [hv.nonempty]

/-! ### A bare version sign -/

theorem withoutBareSign_of_last {token : Text} (h : token.getLast? ≠ some versionSign) :
    withoutBareSign token = token := if_neg fun hs => h hs.1

theorem withoutBareSign_of_version (hne : version ≠ []) (hv : versionSign ∉ version)
    (name : Text) : withoutBareSign (name ++ versionSign :: version)
      = name ++ versionSign :: version := by
  refine withoutBareSign_of_last fun hlast => hv (List.mem_of_getLast? ?_)
  obtain ⟨c, rest, rfl⟩ := List.exists_cons_of_ne_nil hne
  simpa [List.getLast?_append, List.getLast?_cons] using hlast

theorem withoutBareSign_of_name (hname : name ≠ []) :
    withoutBareSign (name ++ [versionSign]) = name := by
  have hlength : 1 < (name ++ [versionSign]).length := by
    have := List.length_pos_iff.2 hname
    rw [List.length_append, List.length_singleton]
    omega
  rw [withoutBareSign, if_pos ⟨List.getLast?_concat, hlength⟩, List.dropLast_concat]

/-- Without a name before its version sign a token is all name. -/
theorem split_of_nameless {token : Text} (h : token.trim = versionSign :: version)
    (hv : versionSign ∉ version) : split token = (token.trim, none) := by
  have hcut : Text.cutLast? versionSign token.trim = some ([], version) :=
    h ▸ Text.cutLast?_append hv []
  rw [split, hcut]
  rfl

/-- A token that is put together again is as it was, but for blanks around it and a bare version
sign at its end. The cases are those of the last version sign: none, without a name before it,
without a version after it, and between a name and a version. -/
theorem join_name_version (token : Text) :
    join (TypeToken.name token) (TypeToken.version token) = withoutBareSign token.trim := by
  unfold TypeToken.name TypeToken.version
  by_cases hsign : versionSign ∈ token.trim
  · obtain ⟨name, version, htrim, hv⟩ := Text.exists_last hsign
    by_cases hname : name = []
    · subst hname
      rw [split_of_nameless htrim hv, join_none, htrim]
      by_cases hversion : version = []
      · subst hversion
        rfl
      · exact (withoutBareSign_of_version hversion hv []).symm
    · rw [split_of_signed htrim hname hv, htrim]
      by_cases hversion : version = []
      · subst hversion
        exact (withoutBareSign_of_name hname).symm
      · rw [withoutBareSign_of_version hversion hv, ← join_some hversion]
        simp [hversion]
  · rw [split_of_not_mem hsign, join_none, withoutBareSign_of_last]
    exact fun hlast => hsign (List.mem_of_getLast? hlast)

example : join (TypeToken.name " Button@@".toList) (TypeToken.version " Button@@".toList)
    = "Button@".toList := by decide

/-! ## Categories and rules -/

theorem lastPart_append {part : Text} (h : '/' ∉ part) (before : Text) :
    lastPart (before ++ '/' :: part) = part := by
  rw [lastPart, Text.cutLast?_append h]

theorem lastPart_of_not_mem {part : Text} (h : '/' ∉ part) : lastPart part = part := by
  rw [lastPart, Text.cutLast?_of_not_mem h]

/-- A name behind a slash is a name. -/
theorem IsPart.behind (hname : IsPart name) {before : Text} (hsign : versionSign ∉ before)
    (htrim : before.trimStart = before) : IsPart (before ++ '/' :: name) where
  nonempty := by simp
  unsigned := by
    have hslash : versionSign ≠ '/' := by decide
    simp [hsign, hslash, hname.unsigned]
  trimmed := by
    refine Text.trim_eq (fun c hc => ?_) (Text.forall_getLast_append (by decide) hname.last before)
    cases before with
    | nil =>
      obtain rfl : '/' = c := by simpa using hc
      decide
    | cons d rest =>
      obtain rfl : d = c := by simpa using hc
      exact Text.not_isBlank_head_trimStart htrim

theorem category_join (hname : IsPart name) (hslash : '/' ∉ name) {before : Text}
    (hsign : versionSign ∉ before) (htrim : before.trimStart = before) {version : Option Text}
    (hversion : ∀ v ∈ version, IsPart v) :
    category (join (before ++ '/' :: name) version) = category name := by
  have hbehind : TypeToken.name (join (before ++ '/' :: name) version) = before ++ '/' :: name :=
    congrArg Prod.fst (split_join (hname.behind hsign htrim) hversion)
  have hunversioned : ∀ v ∈ (none : Option Text), IsPart v := by simp
  have halone : TypeToken.name name = name := congrArg Prod.fst (split_join hname hunversioned)
  rw [category, hbehind, lastPart_append hslash, category, halone, lastPart_of_not_mem hslash]

theorem join_ne_nil (h : name ≠ []) (version : Option Text) : join name version ≠ [] := by
  cases version with
  | none => exact h
  | some v =>
    rw [join]
    split
    · exact h
    · simp

theorem ruleFor_congr {token token' : Text} (h : token ≠ []) (h' : token' ≠ [])
    (hcategory : category token = category token') (rules : RuleTable) :
    rules.ruleFor token = rules.ruleFor token' := by
  simp [RuleTable.ruleFor, h, h', hcategory]

/-! ## The laws together -/

/-- A name and a version are found again in the token that they are put together to. Any token put
together again from its parts is as it was, without the blanks around it and without a bare version
sign at its end. A type has the category and the rules of the part of its name after the last slash,
whatever stands before that and whatever its version is. -/
theorem parts_recovered :
    (∀ name version, IsPart name → (∀ v ∈ version, IsPart v) →
      split (join name version) = (name, version))
    ∧ (∀ token, join (TypeToken.name token) (TypeToken.version token) = withoutBareSign token.trim)
    ∧ ∀ before name version, versionSign ∉ before → before.trimStart = before → IsPart name →
      '/' ∉ name → (∀ v ∈ version, IsPart v) →
        category (join (before ++ '/' :: name) version) = category name
        ∧ ∀ (rules : RuleTable) (other : Text),
          (∀ classic, rules.find? (join (before ++ '/' :: name) version) classic
            = rules.find? name classic)
          ∧ rules.find? other (some (join (before ++ '/' :: name) version))
            = rules.find? other (some name) := by
  refine ⟨fun name version hname hversion => split_join hname hversion, join_name_version, ?_⟩
  intro before name version hsign htrim hname hslash hversion
  have hcategory := category_join hname hslash hsign htrim hversion
  have hbehind := join_ne_nil (hname.behind hsign htrim).nonempty version
  have hrule := ruleFor_congr hbehind hname.nonempty hcategory
  refine ⟨hcategory, fun rules other => ⟨fun classic => ?_, ?_⟩⟩
  · rw [RuleTable.find?, hrule rules, RuleTable.find?]
  · rw [RuleTable.find?, Option.bind_some, hrule rules, RuleTable.find?, Option.bind_some]

/-- A prefix with a slash and a blank in it. -/
def appPrefix : Text := "Power Apps/Classic".toList

/-- The name of a type. -/
def buttonName : Text := "Button".toList

/-- The version of a type. -/
def buttonVersion : Text := "2.2.0".toList

theorem parts_recovered_button :
    IsPart buttonName ∧ '/' ∉ buttonName ∧ (∀ v ∈ some buttonVersion, IsPart v)
    ∧ versionSign ∉ appPrefix ∧ appPrefix.trimStart = appPrefix
    ∧ split (join buttonName (some buttonVersion)) = (buttonName, some buttonVersion)
    ∧ category (join (appPrefix ++ '/' :: buttonName) (some buttonVersion)) = category buttonName
    ∧ RuleTable.builtIn.find? (join (appPrefix ++ '/' :: buttonName) (some buttonVersion)) none
      = RuleTable.builtIn.find? buttonName none := by
  have hname : IsPart buttonName := ⟨by decide, by decide, by decide⟩
  have hslash : '/' ∉ buttonName := by decide
  have hversion : ∀ v ∈ some buttonVersion, IsPart v := by
    intro v hv
    obtain rfl := Option.some.inj hv
    exact ⟨by decide, by decide, by decide⟩
  have hsign : versionSign ∉ appPrefix := by decide
  have htrim : appPrefix.trimStart = appPrefix := by decide
  obtain ⟨hsplit, -, hbehind⟩ := parts_recovered
  obtain ⟨hcategory, hrules⟩ := hbehind _ _ _ hsign htrim hname hslash hversion
  exact ⟨hname, hslash, hversion, hsign, htrim, hsplit _ _ hname hversion, hcategory,
    (hrules RuleTable.builtIn []).1 none⟩

end TypeToken

end ModernControls
