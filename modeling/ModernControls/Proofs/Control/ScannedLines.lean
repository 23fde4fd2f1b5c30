import ModernControls.Control.Scan
import ModernControls.Proofs.Control.Names
import ModernControls.Proofs.Tables

/-!
# Scanning the lines of a section

The scan of properties knows no more of a line than how far it is indented. The first line of a
section that is not blank fixes the level of its keys: a line at that level is a key with a value
behind it, and a line further to the right is passed over, whatever stands on it.

Results:
- `scanLines_key`: what a line with a key at the level adds;
- `scanLines_below`: lines below such a line add nothing;
- `not_startsSection_name`: a line with a name begins a section only if it is that of properties.
-/
namespace ModernControls

namespace Properties

variable {base level : Nat} {level? : Option Nat} {found : Properties}

/-! ## Indentation -/

theorem indentOf_spaces (n : Nat) {c : Char} (hc : isBlank c = false) (t : Text) :
    indentOf (Text.spaces n ++ c :: t) = n := by
  rw [indentOf, (Text.takeWhile_run (Text.isBlank_spaces n) hc t).1, Text.length_spaces]

theorem le_indentOf_spaces (n : Nat) (t : Text) : n ≤ indentOf (Text.spaces n ++ t) := by
  rw [indentOf, List.takeWhile_append_of_pos (Text.isBlank_spaces n), List.length_append,
    Text.length_spaces]
  exact Nat.le_add_right n _

/-- Trimming a line takes its indentation away, and nothing at its end if no blank stands there. -/
theorem trim_spaces (n : Nat) {c : Char} (hc : isBlank c = false) {t : Text}
    (ht : ∀ d ∈ (c :: t).getLast?, isBlank d = false) :
    Text.trim (Text.spaces n ++ c :: t) = c :: t := by
  show (Text.trimStart _).trimEnd = _
  rw [Text.trimStart_spaces n hc, Text.trimEnd_eq ht]

/-! ## Lines of a section -/

/-- Whether a line is blank or stands to the right of a level. -/
def IsBelow (level : Nat) (line : Text) : Prop := line = [] ∨ level < indentOf line

/-- Lines below a key add nothing. -/
theorem scanLines_below (hb : base < level) {below : List Text} (h : ∀ l ∈ below, IsBelow level l)
    (rest : List Text) :
    scanLines base (some level) found (below ++ rest) = scanLines base (some level) found rest := by
  induction below with
  | nil => rfl
  | cons line below ih =>
    have ih := ih fun l hl => h l (List.mem_cons_of_mem _ hl)
    rw [List.cons_append, scanLines]
    rcases h line List.mem_cons_self with rfl | hright
    · exact ih
    · have hbase : ¬ indentOf line ≤ base := by omega
      have hlevel : ¬ indentOf line = (some level).getD (indentOf line) := by
        rw [Option.getD_some]
        omega
      dsimp only
      by_cases hskip : (line.trim.isEmpty || decide (line.trim.head? = some '#')) = true
      · rw [if_pos hskip]
        exact ih
      · rw [if_neg hskip, if_neg hbase, if_neg hlevel]
        exact ih

/-- A line with a key at the level adds the value that stands on it, if there is one. -/
theorem scanLines_key (hl : level?.getD level = level) (hb : base < level) {key rest : Text}
    (hk : IsName key) (hr : ∀ c ∈ rest.getLast?, isBlank c = false) {value? : Option Property}
    (hv : scanValue rest.trim = .ok value?) (hnew : key ∉ found.keys) (more : List Text) :
    scanLines base level? found ((Text.spaces level ++ key ++ ':' :: rest) :: more)
      = scanLines base (some level) (found ++ (value?.map (key, ·)).toList) more := by
  have hword := hk.chars
  have hcolon : ':' ∉ key := hk.not_mem (by decide)
  obtain ⟨c, r, rfl, -⟩ := hk.letter
  have hc := (not_isBlank_of_isWordChar (hword c List.mem_cons_self)).1
  have hhash : c ≠ '#' := fun he => absurd (he ▸ hword c List.mem_cons_self) (by decide)
  have hlast : ∀ d ∈ (c :: (r ++ ':' :: rest)).getLast?, isBlank d = false :=
    Text.forall_getLast_append (by decide) hr (c :: r)
  have htrim : Text.trim (c :: r) = c :: r :=
    Text.strip_eq fun d hd => (not_isBlank_of_isWordChar (hword d hd)).1
  have hline : scanLine (c :: (r ++ ':' :: rest)) = .ok (value?.map (c :: r, ·)) := by
    rw [← List.cons_append, scanLine, Text.cut_append hcolon]
    dsimp only
    rw [hv, htrim]
    rfl
  have hbody : Text.spaces level ++ (c :: r) ++ ':' :: rest
      = Text.spaces level ++ c :: (r ++ ':' :: rest) := by simp
  have hbase : ¬ level ≤ base := by omega
  rw [hbody, scanLines, trim_spaces level hc hlast, indentOf_spaces level hc]
  simp only [List.isEmpty_cons, List.head?_cons, Option.some.injEq, hhash, decide_false,
    Bool.or_false, Bool.false_eq_true, if_false, if_neg hbase, hl, if_true, hline]
  cases value? with
  | none => rw [Option.map_none, Option.toList_none, List.append_nil]; rfl
  | some value =>
    rw [Option.map_some, Option.toList_some, ← Table.insert_of_not_mem hnew]
    rfl

/-! ## The first line of a section -/

theorem not_startsSection {line : Text} {c : Char} {t : Text}
    (hl : line.dropWhile isSpaceOrTab = c :: t) (hc : c ≠ 'P') : startsSection line = false := by
  rw [startsSection, hl]
  have hkey : propertiesKey ++ [':'] = 'P' :: "roperties:".toList := by decide
  rw [hkey, Text.after?, if_neg hc]

/-- A line with a name at its start begins a section only if the name is that of properties. -/
theorem not_startsSection_name {name : Text} (hname : IsName name) (hne : name ≠ propertiesKey) :
    startsSection (name ++ [':']) = false := by
  have hstart : (name ++ [':']).dropWhile isSpaceOrTab = name ++ [':'] := by
    obtain ⟨c, r, rfl, -⟩ := hname.letter
    have hc := (not_isBlank_of_isWordChar (hname.chars c List.mem_cons_self)).1
    rw [List.cons_append, List.dropWhile_cons, if_neg (by simp [Text.not_isSpaceOrTab hc])]
  have hcolon : ':' ∉ name := hname.not_mem (by decide)
  rw [startsSection, hstart]
  split
  · next rest hrest =>
    have hcut := Text.eq_append_of_after? hrest
    have hkey : (':' : Char) ∉ propertiesKey := by decide
    have hparts := congrArg (Text.cut ':') hcut
    rw [List.append_assoc, List.singleton_append, Text.cut_append hcolon,
      Text.cut_append hkey] at hparts
    exact absurd (Prod.mk.inj hparts).1 hne
  · rfl

end Properties

end ModernControls
