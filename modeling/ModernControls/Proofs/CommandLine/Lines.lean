import ModernControls.CommandLine.Command
import ModernControls.Proofs.Outcomes

/-!
# Lines that call for a conversion

A line that names the conversion, an input, and then an output file, a mapping file and the log, or
some of these, calls for just that, if it calls for anything. What stands for the input may be no
such word: a switch in its place leaves the input missing, and the divider is none at all.

**Lines (`Command.ConvertLine`).** The lines written in this way, and all others that are read as a
call for a conversion.

Results:
- `Grammar.readAll_value`, `Grammar.readAll_flag`: a switch is given, and the words after it are
  read as before;
- `Command.readAll_optionWords`: the switches of a line give what they name and take no place;
- `Command.parse_convertLine`: a line calls for what it names.
-/
namespace ModernControls

namespace Grammar

variable {g : Grammar} {r out : WordsRead} {fresh : Bool} {name value word : Text}
  {rest : List Text} {args : List Argument} {role : Role} {s : Switch}

/-! ## Roles -/

/-- No word before a divider is one. -/
theorem roleOf_ne_divider (h : g.roleOf word = .ok role) : role ≠ .divider := by
  have hjoined : ∀ role ∈ g.joined? word, ∃ s short value, role = .switch s short value := by
    intro role hr
    unfold joined? at hr
    split at hr
    · obtain ⟨s, -, rfl⟩ := Option.map_eq_some_iff.1 hr
      exact ⟨_, _, _, rfl⟩
    · cases hr
  have hcandidates : ∀ role ∈ g.candidates word, ∃ s short value, role = .switch s short value := by
    intro role hr
    unfold candidates at hr
    split at hr
    · obtain ⟨e, -, rfl⟩ := List.mem_map.1 hr
      exact ⟨_, _, _, rfl⟩
    · obtain ⟨e, -, rfl⟩ := List.mem_map.1 hr
      exact ⟨_, _, _, rfl⟩
  rintro rfl
  unfold roleOf at h
  split at h
  · cases h
  · split at h
    · cases h
    · next hj =>
      obtain rfl := Except.ok.inj h
      obtain ⟨_, _, _, hs⟩ := hjoined _ hj
      cases hs
    · next hc =>
      obtain rfl := Except.ok.inj h
      obtain ⟨_, _, _, hs⟩ := hcandidates .divider (hc ▸ List.mem_singleton_self _)
      cases hs
    · unfold roleOfStray at h
      split at h <;> cases h
    · cases h

theorem roles_cons (hw : word ≠ Argument.divider) (h : g.roles (word :: rest) = .ok args) :
    ∃ role others, g.roleOf word = .ok role ∧ g.roles rest = .ok others
      ∧ args = ⟨word, role⟩ :: others := by
  rw [roles, if_neg hw] at h
  split at h
  · next role others hrole hothers => exact ⟨role, others, hrole, hothers, (Except.ok.inj h).symm⟩
  · cases h
  · cases h

theorem texts_of_roles (h : g.roles rest = .ok args) : args.map Argument.text = rest := by
  induction rest generalizing args with
  | nil =>
    obtain rfl := Except.ok.inj h
    rfl
  | cons word rest ih =>
    by_cases hw : word = Argument.divider
    · subst hw
      rw [roles_divider] at h
      obtain rfl := Except.ok.inj h
      rw [List.map_cons, List.map_map]
      exact congrArg _ (List.map_id rest)
    · obtain ⟨role, others, -, hothers, rfl⟩ := roles_cons hw h
      rw [List.map_cons, ih hothers]

/-! ## Switches -/

/-- A switch without a value of its own is given, and the words after it are read. -/
theorem readAll_flag {short : Bool} (hv : s.takesValue = false) (hs : s ≠ .help)
    (h : g.readAll r fresh (⟨name, .switch s short none⟩ :: args) = .ok out) :
    g.readAll (r.give s []) false args = .ok out := by
  have hneeds : needsValue [s] none = false := by simpa [needsValue] using hv
  have hgive : g.give r [s] [] = .ok (r.give s []) := by simp [give, Ne.symm hs]
  rw [readAll] at h
  simpa [switchesOf, hneeds, hgive] using h

/-- A switch with the next word as its value is given, and the words after these are read. -/
theorem readAll_value {short : Bool} (hn : name ≠ Argument.divider)
    (hrole : g.roleOf name = .ok (.switch s short none)) (hv : s.takesValue = true) (hs : s ≠ .help)
    (hroles : g.roles (name :: value :: rest) = .ok args) (h : g.readAll r fresh args = .ok out) :
    value ≠ Argument.divider ∧ ∃ others, g.roles rest = .ok others
      ∧ g.readAll (r.give s value) false others = .ok out := by
  have hneeds : needsValue [s] none = true := by simpa [needsValue] using hv
  have hgive : g.give r [s] value = .ok (r.give s value) := by simp [give, Ne.symm hs]
  obtain ⟨role, next, hr, hnext, rfl⟩ := roles_cons hn hroles
  obtain rfl := Except.ok.inj (hrole.symm.trans hr)
  rw [readAll] at h
  by_cases hd : value = Argument.divider
  · subst hd
    rw [roles_divider] at hnext
    obtain rfl := Except.ok.inj hnext
    simp [switchesOf, hneeds] at h
  · obtain ⟨role, others, -, hothers, rfl⟩ := roles_cons hd hnext
    refine ⟨hd, others, hothers, ?_⟩
    cases role with
    | plain => simpa [switchesOf, hneeds, hgive] using h
    | _ => simp [switchesOf, hneeds] at h

/-- As before, where the switch may be left out. -/
theorem readAll_optional {short : Bool} (hn : name ≠ Argument.divider)
    (hrole : g.roleOf name = .ok (.switch s short none)) (hv : s.takesValue = true) (hs : s ≠ .help)
    {value? : Option Text} (hroles : g.roles ((value?.elim [] fun v => [name, v]) ++ rest) = .ok args)
    (h : g.readAll r fresh args = .ok out) :
    (∀ v ∈ value?, v ≠ Argument.divider) ∧ ∃ fresh others, g.roles rest = .ok others
      ∧ g.readAll (value?.elim r (r.give s)) fresh others = .ok out := by
  cases value? with
  | none => exact ⟨nofun, fresh, args, hroles, h⟩
  | some value =>
    obtain ⟨hd, others, hothers, hread⟩ := readAll_value hn hrole hv hs hroles h
    refine ⟨?_, false, others, hothers, hread⟩
    intro v hmem
    exact Option.some.inj hmem ▸ hd

end Grammar

namespace Command

open Grammar

/-- The words for an output file, a mapping file and the log, as far as they are wanted. -/
def optionWords (output mappings : Option Text) (log : Bool) : List Text :=
  (output.elim [] fun name => ["-o".toList, name])
    ++ ((mappings.elim [] fun name => ["-m".toList, name])
      ++ if log then ["--log".toList] else [])

/-- The lines that call for a conversion of an input: those with its words, and all that are read
so. The divider is no word for an input; if it stands there, the word after it is the input. -/
inductive ConvertLine : List Text → Text → Option Text → Option Text → Bool → Prop
  | written {input : Text} (h : input ≠ Argument.divider) (output mappings : Option Text)
    (log : Bool) :
    ConvertLine ("convert".toList :: input :: optionWords output mappings log)
      input output mappings log
  | read {words : List Text} {level : Option SwitchValue} {input : Text}
    {output mappings : Option Text} {log : Bool}
    (h : Invocation.parse words
      = .ok ⟨level, some (.convert input (output.map .text) (mappings.map .text) log)⟩) :
    ConvertLine words input output mappings log

/-- What is read with the switches of a line. -/
def giveOptions (r : WordsRead) (output mappings : Option Text) (log : Bool) : WordsRead :=
  let named := output.elim r (r.give .output)
  let mapped := mappings.elim named (named.give .mappings)
  if log then mapped.give .log [] else mapped

variable {input : Text} {output mappings : Option Text} {log fresh : Bool} {args : List Argument}
  {r out : WordsRead}

/-! ## The switches of a line -/

theorem taken_giveOptions (r : WordsRead) (output mappings : Option Text) (log : Bool) :
    (giveOptions r output mappings log).taken = r.taken := by
  cases output <;> cases mappings <;> cases log <;> rfl

theorem others_giveOptions (r : WordsRead) (output mappings : Option Text) (log : Bool) :
    (giveOptions r output mappings log).others = r.others := by
  cases output <;> cases mappings <;> cases log <;> rfl

theorem given_giveOptions (hr : r.given = {}) (ho : ∀ v ∈ output, v ≠ Argument.divider)
    (hm : ∀ v ∈ mappings, v ≠ Argument.divider) :
    (giveOptions r output mappings log).given
      = ⟨none, output.map .text, mappings.map .text, log⟩ := by
  have hset : ∀ (given : Given) (value : Text), value ≠ Argument.divider →
      given.set .output value = { given with output := some (.text value) }
        ∧ given.set .mappings value = { given with mappings := some (.text value) } := by
    intro given value hv
    simp [Given.set, hv]
  unfold giveOptions
  cases output with
  | none =>
    cases mappings with
    | none => cases log <;> simp [WordsRead.give, hr, Given.set]
    | some file =>
      have hfile := fun given => (hset given file (hm file rfl)).2
      cases log with
      | false => simp [WordsRead.give, hr, hfile]
      | true =>
        simp [WordsRead.give, hr, hfile]
        rfl
  | some name =>
    have hname := fun given => (hset given name (ho name rfl)).1
    cases mappings with
    | none =>
      cases log with
      | false => simp [WordsRead.give, hr, hname]
      | true =>
        simp [WordsRead.give, hr, hname]
        rfl
    | some file =>
      have hfile := fun given => (hset given file (hm file rfl)).2
      cases log with
      | false => simp [WordsRead.give, hr, hname, hfile]
      | true =>
        simp [WordsRead.give, hr, hname, hfile]
        rfl

theorem roleOf_output : convertGrammar.roleOf "-o".toList = .ok (.switch .output true none) := by
  rfl

theorem roleOf_mappings : convertGrammar.roleOf "-m".toList = .ok (.switch .mappings true none) := by
  rfl

theorem roleOf_log : convertGrammar.roleOf "--log".toList = .ok (.switch .log false none) := by
  rfl

/-- The switches of a line give what they name and take no place. -/
theorem readAll_optionWords
    (hroles : convertGrammar.roles (optionWords output mappings log) = .ok args)
    (h : convertGrammar.readAll r fresh args = .ok out) :
    (∀ v ∈ output, v ≠ Argument.divider) ∧ (∀ v ∈ mappings, v ≠ Argument.divider)
      ∧ out = giveOptions r output mappings log := by
  obtain ⟨houtput, fresh₁, args₁, hroles, h⟩ :=
    readAll_optional (by decide) roleOf_output rfl nofun hroles h
  obtain ⟨hmappings, fresh₂, args₂, hroles, h⟩ :=
    readAll_optional (by decide) roleOf_mappings rfl nofun hroles h
  refine ⟨houtput, hmappings, ?_⟩
  cases log with
  | false =>
    obtain rfl := Except.ok.inj hroles
    exact (Except.ok.inj h).symm
  | true =>
    obtain ⟨role, others, hrole, hothers, rfl⟩ := roles_cons (by decide) hroles
    obtain rfl := Except.ok.inj (roleOf_log.symm.trans hrole)
    obtain rfl := Except.ok.inj hothers
    have hread := readAll_flag (s := .log) rfl nofun h
    exact (Except.ok.inj hread).symm

/-- No plain word begins the switches of a line. -/
theorem not_plain_of_optionWords
    (hroles : convertGrammar.roles (optionWords output mappings log) = .ok args) (text : Text)
    (rest : List Argument) : args ≠ ⟨text, .plain⟩ :: rest := by
  have hfirst : ∀ {name : Text} {words : List Text} {s : Switch} {short : Bool},
      name ≠ Argument.divider → convertGrammar.roleOf name = .ok (.switch s short none) →
      convertGrammar.roles (name :: words) = .ok args → args ≠ ⟨text, .plain⟩ :: rest := by
    intro name words s short hn hrole hroles hargs
    obtain ⟨role, others, hr, -, rfl⟩ := roles_cons hn hroles
    obtain rfl := Except.ok.inj (hrole.symm.trans hr)
    cases hargs
  cases output with
  | some name => exact hfirst (by decide) roleOf_output hroles
  | none =>
    cases mappings with
    | some file => exact hfirst (by decide) roleOf_mappings hroles
    | none =>
      cases log with
      | true => exact hfirst (by decide) roleOf_log hroles
      | false =>
        obtain rfl := Except.ok.inj hroles
        nofun

/-! ## The input -/

theorem taken_foldl_give (r : WordsRead) (switches : List Switch) (value : Text) :
    (switches.foldl (fun r s => r.give s value) r).taken = r.taken := by
  induction switches generalizing r with
  | nil => rfl
  | cons s rest ih => exact ih (r.give s value)

/-- What is no plain word leaves the place of the input open. -/
theorem taken_of_ne_plain {role : Role} (hp : role ≠ .plain) (hd : role ≠ .divider)
    (hroles : convertGrammar.roles (optionWords output mappings log) = .ok args)
    (h : convertGrammar.readAll {} false (⟨input, role⟩ :: args) = .ok out) : out.taken = none := by
  have hrest : ∀ {r : WordsRead}, r.taken = none →
      convertGrammar.readAll r false args = .ok out → out.taken = none := by
    intro r hr hread
    rw [(readAll_optionWords hroles hread).2.2, taken_giveOptions, hr]
  cases role with
  | plain => exact absurd rfl hp
  | divider => exact absurd rfl hd
  | unknown => exact hrest rfl h
  | switch s short joined =>
    rw [readAll] at h
    split at h
    · cases h
    · next switches value hswitches =>
      split at h
      · split at h
        · next text rest => exact absurd rfl (not_plain_of_optionWords hroles text rest)
        · cases h
      · split at h
        · next r hgive =>
          refine hrest ?_ h
          unfold Grammar.give at hgive
          split at hgive
          · cases hgive
          · obtain rfl := Except.ok.inj hgive
            exact taken_foldl_give {} switches _
        · cases h

/-- The words after the name of the conversion, if they are read. -/
theorem read_optionWords (hi : input ≠ Argument.divider)
    (h : convertGrammar.read (input :: optionWords output mappings log) = .ok out) :
    out = ⟨⟨none, output.map .text, mappings.map .text, log⟩, some [input], []⟩ := by
  unfold Grammar.read at h
  split at h
  · cases h
  · next args hargs =>
    obtain ⟨role, others, hrole, hothers, rfl⟩ := roles_cons hi hargs
    split at h
    · cases h
    · next r hread =>
      split at h
      · cases h
      · next hplace =>
        obtain rfl := Except.ok.inj h
        by_cases hp : role = .plain
        · subst hp
          have hinput : convertGrammar.readAll (WordsRead.take {} [input]) true others = .ok r := hread
          obtain ⟨ho, hm, rfl⟩ := readAll_optionWords hothers hinput
          have hgiven : (giveOptions (WordsRead.take {} [input]) output mappings log).given
              = ⟨none, output.map .text, mappings.map .text, log⟩ := given_giveOptions rfl ho hm
          rw [WordsRead.mk.injEq]
          exact ⟨hgiven, taken_giveOptions _ _ _ _, others_giveOptions _ _ _ _⟩
        · have hnone := taken_of_ne_plain hp (roleOf_ne_divider hrole) hothers hread
          rw [WordsRead.openPlace, hnone] at hplace
          exact absurd rfl hplace

/-! ## The line -/

/-- A command takes all words after its name. -/
theorem read_command {rest : List Text}
    (h : grammar.read ("convert".toList :: rest) = .ok out) :
    out = { taken := some ("convert".toList :: rest) } := by
  unfold Grammar.read at h
  split at h
  · cases h
  · next args hargs =>
    obtain ⟨role, others, hrole, hothers, rfl⟩ := roles_cons (by decide) hargs
    have hplain : grammar.roleOf "convert".toList = .ok .plain := by rfl
    obtain rfl := Except.ok.inj (hplain.symm.trans hrole)
    have hread : grammar.readAll {} false (⟨"convert".toList, .plain⟩ :: others)
        = .ok { taken := some ("convert".toList :: others.map Argument.text) } := rfl
    rw [hread, texts_of_roles hothers] at h
    exact (Except.ok.inj h).symm

/-- A line calls for what it names, if it calls for anything. -/
theorem parse_convertLine {words : List Text} {invocation : Invocation}
    (h : ConvertLine words input output mappings log)
    (hp : Invocation.parse words = .ok invocation) :
    invocation.command = some (.convert input (output.map .text) (mappings.map .text) log) := by
  cases h with
  | read h =>
    obtain rfl := Except.ok.inj (h.symm.trans hp)
    rfl
  | written hi =>
    unfold Invocation.parse at hp
    split at hp
    · cases hp
    · next r hr =>
      obtain rfl := read_command hr
      have hnames : Table.get? names "convert".toList = some .convert := by rfl
      simp only [ofTaken, hnames, parseNamed, ofRead] at hp
      cases hread : convertGrammar.read (input :: optionWords output mappings log) with
      | error stop =>
        rw [hread] at hp
        cases hp
      | ok out =>
        obtain rfl := read_optionWords hi hread
        rw [hread] at hp
        obtain rfl := Except.ok.inj hp
        rfl

end Command

end ModernControls
