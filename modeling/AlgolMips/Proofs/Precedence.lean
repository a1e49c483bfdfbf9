import AlgolMips.Proofs.CommandLine
import AlgolMips.Settings.Flags
import Mathlib.Data.Set.List

/-!
# Precedence of switches

A directive has a name, and the name of a flag is told apart from all others by two recognisers, one for the directives
about all warnings and one for the rest. Names are parsed once more when they are applied. Both agree on every text:
what is recognised is the name of a directive, and it is parsed as that directive, so applying names never fails.

The last directive about a switch decides it (`foldl_apply`). Since directives about all warnings come first, the last
name of a single warning decides it wherever it stands, and the last name about all of them only where there is none.
-/

namespace AlgolMips

/-! ## Names of directives -/

namespace Directive

/-- The name that spells a directive. -/
def name : Directive → Text
  | feature f true => "F" ++ f.name
  | feature f false => "Fno-" ++ f.name
  | warning w true => "W" ++ w.name
  | warning w false => "Wno-" ++ w.name
  | warnings true => "Wall"
  | warnings false => "Wno-all"

/-- Whether a directive is about all warnings at once. -/
def isGeneral : Directive → Bool
  | warnings _ => true
  | _ => false

theorem parse_name (d : Directive) : parse ("-" ++ d.name) = .ok d := by
  cases d with
  | feature f on => cases f <;> cases on <;> rfl
  | warning w on => cases w <;> cases on <;> rfl
  | warnings on => cases on <;> rfl

theorem name_injective {d e : Directive} (h : d.name = e.name) : d = e := by
  have hparse := d.parse_name
  rw [h, e.parse_name] at hparse
  cases hparse
  rfl

end Directive

theorem Warning.name_of_ofName? {n : Text} {w : Warning} (h : Warning.ofName? n = some w) : w.name = n := by
  simpa using List.find?_some h

theorem Feature.name_of_ofName? {n : Text} {f : Feature} (h : Feature.ofName? n = some f) : f.name = n := by
  simpa using List.find?_some h

namespace Settings

/-- A name behind a perhaps missing `no-`. -/
theorem eq_or_eq_of_trim {body n : Text} (h : n = Text.trimBeginning "no-" body) : body = n ∨ body = "no-" ++ n := by
  rw [Text.trimBeginning] at h
  cases hdrop : Text.dropBeginning? "no-" body with
  | none => exact .inl (by rw [h, hdrop]; rfl)
  | some rest =>
    rw [hdrop] at h
    obtain rfl : n = rest := h
    exact .inr (congrArg Text.mk (Text.bytes_of_dropBeginning? hdrop))

theorem isGeneralName_iff {n : Text} : isGeneralName n ↔ ∃ d : Directive, d.isGeneral ∧ d.name = n := by
  constructor
  · intro h
    simp only [isGeneralName, Bool.or_eq_true, decide_eq_true_eq] at h
    rcases h with rfl | rfl
    · exact ⟨.warnings true, rfl, rfl⟩
    · exact ⟨.warnings false, rfl, rfl⟩
  · rintro ⟨d, hd, rfl⟩
    cases d with
    | warnings on => cases on <;> rfl
    | feature | warning => cases hd

/-- What the recogniser takes for the name of a single switch is the name of its directive. -/
theorem exists_name_of_isSingleName {n : Text} (h : isSingleName n) :
    ∃ d : Directive, d.isGeneral = false ∧ d.name = n := by
  cases hW : Text.dropBeginning? "W" n with
  | some body =>
    obtain ⟨w, hw⟩ : ∃ w, Warning.ofName? (Text.trimBeginning "no-" body) = some w :=
      Option.isSome_iff_exists.1 (by simpa only [isSingleName, hW] using h)
    obtain rfl : n = "W" ++ body := congrArg Text.mk (Text.bytes_of_dropBeginning? hW)
    rcases eq_or_eq_of_trim (Warning.name_of_ofName? hw) with rfl | rfl
    · exact ⟨.warning w true, rfl, rfl⟩
    · exact ⟨.warning w false, rfl, rfl⟩
  | none =>
    cases hF : Text.dropBeginning? "F" n with
    | some body =>
      obtain ⟨f, hf⟩ : ∃ f, Feature.ofName? (Text.trimBeginning "no-" body) = some f :=
        Option.isSome_iff_exists.1 (by simpa only [isSingleName, hW, hF] using h)
      obtain rfl : n = "F" ++ body := congrArg Text.mk (Text.bytes_of_dropBeginning? hF)
      rcases eq_or_eq_of_trim (Feature.name_of_ofName? hf) with rfl | rfl
      · exact ⟨.feature f true, rfl, rfl⟩
      · exact ⟨.feature f false, rfl, rfl⟩
    | none => simp [isSingleName, hW, hF] at h

/-- The second recogniser, behind the first. -/
theorem single_iff {n : Text} :
    (!isGeneralName n && isSingleName n) = true ↔ ∃ d : Directive, d.isGeneral = false ∧ d.name = n := by
  constructor
  · intro h
    exact exists_name_of_isSingleName (Bool.and_eq_true_iff.1 h).2
  · rintro ⟨d, hd, rfl⟩
    cases d with
    | feature f on => cases f <;> cases on <;> rfl
    | warning w on => cases w <;> cases on <;> rfl
    | warnings on => cases hd

end Settings

/-! ## The last directive decides -/

/-- What a word says that is one of two opposites: on, off, or nothing. -/
def told {α : Type} [DecidableEq α] (on off word : α) : Option Bool :=
  if word = on then some true else if word = off then some false else none

namespace Directive

/-- What a directive says about a warning. -/
def warning? (w : Warning) : Directive → Option Bool
  | warning v on => if w = v then some on else none
  | warnings on => some on
  | feature _ _ => none

/-- What a directive says about a feature. -/
def feature? (f : Feature) : Directive → Option Bool
  | feature g on => if f = g then some on else none
  | _ => none

theorem apply_eq (d : Directive) (s : Settings) :
    d.apply s = { s with
      warning := fun w => (d.warning? w).getD (s.warning w)
      feature := fun f => (d.feature? f).getD (s.feature f) } := by
  cases d with
  | feature g on =>
    refine congrArg (fun feature => { s with feature }) (funext fun f => ?_)
    by_cases h : f = g <;> simp [feature?, h]
  | warning v on =>
    refine congrArg (fun warning => { s with warning }) (funext fun w => ?_)
    by_cases h : w = v <;> simp [warning?, h]
  | warnings on => rfl

theorem warning?_of_single {d : Directive} (h : d.isGeneral = false) (w : Warning) :
    d.warning? w = told (warning w true) (warning w false) d := by
  cases d with
  | warning v on => by_cases hw : v = w <;> cases on <;> simp [warning?, told, hw, Ne.symm]
  | feature => rfl
  | warnings => cases h

theorem warning?_of_general {d : Directive} (h : d.isGeneral = true) (w : Warning) :
    d.warning? w = told (warnings true) (warnings false) d := by
  cases d with
  | warnings on => cases on <;> rfl
  | feature | warning => cases h

theorem feature?_eq (d : Directive) (f : Feature) : d.feature? f = told (feature f true) (feature f false) d := by
  cases d with
  | feature g on => by_cases hf : g = f <;> cases on <;> simp [feature?, told, hf, Ne.symm]
  | warning | warnings => rfl

theorem feature?_of_general {d : Directive} (h : d.isGeneral = true) (f : Feature) : d.feature? f = none := by
  cases d with
  | warnings => rfl
  | feature | warning => cases h

/-- Of the directives in a list, the last one that says something about a switch decides it. -/
theorem foldl_apply (ds : List Directive) (s : Settings) :
    ds.foldl (fun s d => d.apply s) s = { s with
      warning := fun w => (ds.reverse.findSome? (warning? w)).getD (s.warning w)
      feature := fun f => (ds.reverse.findSome? (feature? f)).getD (s.feature f) } := by
  induction ds generalizing s with
  | nil => rfl
  | cons d rest ih =>
    rw [List.foldl_cons, ih, apply_eq]
    simp [List.findSome?_append]

end Directive

namespace Settings

theorem applyWords_names (ds : List Directive) (s : Settings) :
    s.applyWords (ds.map fun d => "-" ++ d.name) = (ds.foldl (fun s d => d.apply s) s, none) := by
  induction ds generalizing s with
  | nil => rfl
  | cons d rest ih =>
    rw [List.map_cons, applyWords, d.parse_name]
    exact ih (d.apply s)

/-! ## Which name stands last -/

/-- What the last of two opposite names in a list says: on, off, or nothing where neither of them is there. -/
def verdict? (on off : Text) (names : List Text) : Option Bool := names.reverse.findSome? (told on off)

/-- A verdict looks at nothing but the two names. -/
theorem verdict?_filter {on off : Text} {p q : Text → Bool} (hon : p on = q on) (hoff : p off = q off)
    (names : List Text) : verdict? on off (names.filter p) = verdict? on off (names.filter q) := by
  rw [verdict?, verdict?, ← List.filter_reverse, ← List.filter_reverse]
  generalize names.reverse = names
  induction names with
  | nil => rfl
  | cons n rest ih =>
    rw [List.filter_cons, List.filter_cons]
    by_cases hn : n = on ∨ n = off
    · have hpq : p n = q n := by rcases hn with rfl | rfl <;> assumption
      rw [hpq]
      split
      · rw [List.findSome?_cons, List.findSome?_cons, ih]
      · exact ih
    · -- a name that says nothing may be kept by one test and not by the other
      have hnone : told on off n = none := by
        rw [told, if_neg fun h => hn (.inl h), if_neg fun h => hn (.inr h)]
      split <;> split <;> simp only [List.findSome?_cons, hnone, ih]

/-- The names of two opposite directives say what the directives themselves say. -/
theorem verdict?_names (e : Bool → Directive) {said : Directive → Option Bool} {ds : List Directive}
    (h : ∀ d ∈ ds, said d = told (e true) (e false) d) :
    verdict? (e true).name (e false).name (ds.map Directive.name) = ds.reverse.findSome? said := by
  have hinj (d b) : d.name = (e b).name ↔ d = e b := ⟨Directive.name_injective, congrArg _⟩
  replace h : ∀ d ∈ ds.reverse, _ := fun d hd => h d (List.mem_reverse.1 hd)
  rw [verdict?, ← List.map_reverse, List.findSome?_map]
  generalize ds.reverse = ds at h
  induction ds with
  | nil => rfl
  | cons d rest ih =>
    obtain ⟨hd, hrest⟩ := List.forall_mem_cons.1 h
    rw [List.findSome?_cons, List.findSome?_cons, ih hrest, hd]
    simp only [Function.comp_apply, told, hinj]

/-- Directives whose names were picked from a list say what the list says, if the two names in question are picked. -/
theorem findSome?_eq_verdict? (e : Bool → Directive) {said : Directive → Option Bool} {ds : List Directive}
    {names : List Text} {p : Text → Bool} (hds : ds.map Directive.name = names.filter p) (hp : ∀ b, p (e b).name = true)
    (hsaid : ∀ d ∈ ds, said d = told (e true) (e false) d) :
    ds.reverse.findSome? said = verdict? (e true).name (e false).name names := by
  rw [← verdict?_names e hsaid, hds, verdict?_filter (q := fun _ => true) (hp true) (hp false),
    List.filter_eq_self.2 fun _ _ => rfl]

/-- The names that a recogniser keeps are those of directives. -/
theorem exists_directives {p : Text → Bool} {b : Bool}
    (hp : ∀ n, p n = true ↔ ∃ d : Directive, d.isGeneral = b ∧ d.name = n) (names : List Text) :
    ∃ ds : List Directive, ds.map Directive.name = names.filter p ∧ ∀ d ∈ ds, d.isGeneral = b := by
  have hrange : names.filter p ∈ Set.range (List.map Directive.name) := by
    rw [Set.range_list_map]
    intro n hn
    obtain ⟨d, -, hd⟩ := (hp n).1 (List.mem_filter.1 hn).2
    exact ⟨d, hd⟩
  obtain ⟨ds, hds⟩ := hrange
  refine ⟨ds, hds, fun d hd => ?_⟩
  have hkept : d.name ∈ names.filter p := hds ▸ List.mem_map_of_mem hd
  obtain ⟨e, he, hname⟩ := (hp d.name).1 (List.mem_filter.1 hkept).2
  exact Directive.name_injective hname ▸ he

/-- The settings that a list of names decides: a warning by its own names, else by those about all warnings, and a
feature by its own names. The last name counts, and without one all stays as it was. -/
def decided (s : Settings) (names : List Text) : Settings :=
  { s with
    warning := fun w => (verdict? ("W" ++ w.name) ("Wno-" ++ w.name) names).getD
      ((verdict? "Wall" "Wno-all" names).getD (s.warning w))
    feature := fun f => (verdict? ("F" ++ f.name) ("Fno-" ++ f.name) names).getD (s.feature f) }

theorem decided_filter {p q : Text → Bool} (h : ∀ d : Directive, p d.name = q d.name) (s : Settings)
    (names : List Text) : s.decided (names.filter p) = s.decided (names.filter q) := by
  have hpair (e : Bool → Directive) := verdict?_filter (h (e true)) (h (e false)) names
  have hwarning (w : Warning) := hpair (.warning w)
  have hwarnings := hpair .warnings
  have hfeature (f : Feature) := hpair (.feature f)
  simp only [Directive.name] at hwarning hwarnings hfeature
  simp only [decided, hwarning, hwarnings, hfeature]

theorem applyNames_eq (s : Settings) (names : List Text) : s.applyNames names = (s.decided names, none) := by
  obtain ⟨gs, hgs, hgeneral⟩ := exists_directives (fun n => isGeneralName_iff) names
  obtain ⟨ds, hds, hsingle⟩ := exists_directives (fun n => single_iff) names
  have hwords : (directiveNames names).map (Text.ofString "-" ++ ·) =
      (gs ++ ds).map fun d => Text.ofString "-" ++ d.name := by
    rw [directiveNames, ← hgs, ← hds, ← List.map_append, List.map_map]
    rfl
  have hwarning (w : Warning) : ds.reverse.findSome? (Directive.warning? w) =
      verdict? ("W" ++ w.name) ("Wno-" ++ w.name) names :=
    findSome?_eq_verdict? (.warning w) hds (fun _ => single_iff.2 ⟨_, rfl, rfl⟩)
      fun d hd => Directive.warning?_of_single (hsingle d hd) w
  have hwarnings (w : Warning) : gs.reverse.findSome? (Directive.warning? w) = verdict? "Wall" "Wno-all" names :=
    findSome?_eq_verdict? .warnings hgs (fun _ => isGeneralName_iff.2 ⟨_, rfl, rfl⟩)
      fun d hd => Directive.warning?_of_general (hgeneral d hd) w
  have hfeature (f : Feature) : ds.reverse.findSome? (Directive.feature? f) =
      verdict? ("F" ++ f.name) ("Fno-" ++ f.name) names :=
    findSome?_eq_verdict? (.feature f) hds (fun _ => single_iff.2 ⟨_, rfl, rfl⟩) fun d _ => Directive.feature?_eq d f
  have hnone (f : Feature) : gs.reverse.findSome? (Directive.feature? f) = none :=
    List.findSome?_eq_none_iff.2 fun d hd => Directive.feature?_of_general (hgeneral d (List.mem_reverse.1 hd)) f
  rw [applyNames, hwords, applyWords_names, Directive.foldl_apply]
  simp only [List.reverse_append, List.findSome?_append, hwarning, hwarnings, hfeature, hnone, decided, Option.getD_or,
    Option.or_none]

/-! ## Names as a text of directives -/

/-- The names about all warnings. -/
def generalNames : List Text := ["Wall", "Wno-all"]

/-- The names about one warning or one feature. -/
def singleNames : List Text :=
  (Warning.all.flatMap fun w => [Text.ofString "W" ++ w.name, Text.ofString "Wno-" ++ w.name]) ++
    Feature.all.flatMap fun f => [Text.ofString "F" ++ f.name, Text.ofString "Fno-" ++ f.name]

theorem mem_generalNames {n : Text} : n ∈ generalNames ↔ ∃ d : Directive, d.isGeneral = true ∧ d.name = n := by
  rw [← isGeneralName_iff]
  simp [generalNames, isGeneralName]

theorem mem_singleNames {n : Text} : n ∈ singleNames ↔ ∃ d : Directive, d.isGeneral = false ∧ d.name = n := by
  constructor
  · intro h
    simp only [singleNames, List.mem_append, List.mem_flatMap, List.mem_cons, List.not_mem_nil, or_false] at h
    rcases h with ⟨w, -, rfl | rfl⟩ | ⟨f, -, rfl | rfl⟩
    · exact ⟨.warning w true, rfl, rfl⟩
    · exact ⟨.warning w false, rfl, rfl⟩
    · exact ⟨.feature f true, rfl, rfl⟩
    · exact ⟨.feature f false, rfl, rfl⟩
  · rintro ⟨d, hd, rfl⟩
    cases d with
    | feature f on => cases f <;> cases on <;> decide
    | warning w on => cases w <;> cases on <;> decide
    | warnings on => cases hd

theorem directiveNames_eq (names : List Text) :
    directiveNames names = names.filter (· ∈ generalNames) ++ names.filter (· ∈ singleNames) := by
  have hgeneral (n : Text) : isGeneralName n = decide (n ∈ generalNames) := by
    rw [Bool.eq_iff_iff, isGeneralName_iff, decide_eq_true_iff, mem_generalNames]
  have hsingle (n : Text) : (!isGeneralName n && isSingleName n) = decide (n ∈ singleNames) := by
    rw [Bool.eq_iff_iff, single_iff, decide_eq_true_iff, mem_singleNames]
  exact congrArg₂ (· ++ ·) (List.filter_congr fun n _ => hgeneral n) (List.filter_congr fun n _ => hsingle n)

theorem isWord_name (d : Directive) : (Text.ofString "-" ++ d.name).IsWord := by
  cases d with
  | feature f on => cases f <;> cases on <;> decide
  | warning w on => cases w <;> cases on <;> decide
  | warnings on => cases on <;> decide

/-- Names are applied as one text, the names about all warnings first. -/
theorem applyText_names (s : Settings) (names : List Text) :
    s.applyText (Text.join " " ((names.filter (· ∈ generalNames) ++ names.filter (· ∈ singleNames)).map
      (Text.ofString "-" ++ ·))) = s.applyNames names := by
  rw [applyText, Text.words_join, applyNames, directiveNames_eq]
  intro t ht
  simp only [List.mem_map, List.mem_append, List.mem_filter, decide_eq_true_iff] at ht
  obtain ⟨n, ⟨-, hn⟩ | ⟨-, hn⟩, rfl⟩ := ht
  · obtain ⟨d, -, rfl⟩ := mem_generalNames.1 hn
    exact Text.words_of_isWord (isWord_name d)
  · obtain ⟨d, -, rfl⟩ := mem_singleNames.1 hn
    exact Text.words_of_isWord (isWord_name d)

/-- A name that is no directive says nothing. -/
theorem decided_known (s : Settings) (names : List Text) :
    s.decided (names.filter (· ∈ generalNames ++ singleNames)) = s.decided names := by
  have hknown (d : Directive) : decide (d.name ∈ generalNames ++ singleNames) = true := by
    rw [decide_eq_true_iff, List.mem_append, mem_generalNames, mem_singleNames]
    cases h : d.isGeneral with
    | true => exact .inl ⟨d, h, rfl⟩
    | false => exact .inr ⟨d, h, rfl⟩
  rw [decided_filter (q := fun _ => true) hknown, List.filter_eq_self.2 fun _ _ => rfl]

end Settings

/-! ## Switches on a command line -/

namespace Options.FlagSet

variable {s s' s'' : FlagSet} {flags flags' : List Flag}

/-- A set finds what another one finds, and these flags besides. -/
def Adds (s s' : FlagSet) (flags : List Flag) : Prop :=
  (∀ name f, s.lookup name = some f → s'.lookup name = some f) ∧ ∀ f ∈ flags, s'.lookup f.name = some f

theorem Adds.trans (h : Adds s s' flags) (h' : Adds s' s'' flags') : Adds s s'' (flags ++ flags') := by
  refine ⟨fun name f hf => h'.1 name f (h.1 name f hf), fun f hf => ?_⟩
  rcases List.mem_append.1 hf with hf | hf
  · exact h'.1 f.name f (h.2 f hf)
  · exact h'.2 f hf

theorem adds_of_flags {f : Flag} (hnew : s.lookup f.name = none) (h : s'.flags = s.flags ++ [f]) : Adds s s' [f] := by
  have hlookup (name : Text) : s'.lookup name = (s.lookup name).or (if f.name = name then some f else none) := by
    rw [lookup, lookup, h, List.find?_append, List.find?_singleton]
    simp
  refine ⟨fun name g hg => by rw [hlookup, hg]; rfl, List.forall_mem_singleton.2 ?_⟩
  rw [hlookup, hnew, if_pos rfl]
  rfl

theorem adds_add {f : Flag} (h : s.add f = (s', none)) : Adds s s' [f] := by
  rw [add] at h
  split at h
  · cases h
  · split at h
    · cases h
    · next hnew =>
      have hnone := Option.not_isSome_iff_eq_none.1 hnew
      dsimp only at h
      split at h
      · cases h
        exact adds_of_flags hnone rfl
      · split at h
        · cases h
        · cases h
          exact adds_of_flags hnone rfl

theorem adds_addAll (h : s.addAll flags = (s', none)) : Adds s s' flags := by
  induction flags generalizing s with
  | nil =>
    cases h
    exact ⟨fun _ _ hf => hf, by simp⟩
  | cons f rest ih =>
    rw [addAll] at h
    split at h
    · next hadd => exact (adds_add hadd).trans (ih h)
    · cases h

theorem adds_addGroup {g : FlagGroup} (h : s.addGroup g = (s', none)) :
    Adds s s' (g.entries.flatMap GroupEntry.flags) := by
  rw [addGroup] at h
  split at h
  · next hadd =>
    cases h
    -- the group is listed besides, where no flag is looked up
    have hflags := adds_addAll hadd
    exact hflags
  · cases h

end Options.FlagSet

open Options Options.FlagSet

/-- Settings on a line are of the kinds of their flags. -/
theorem Options.Reads.isSwitch?_eq {σ : Signature} {words args ignored : List Text} {settings : List (Text × FlagValue)}
    (h : Reads σ words args settings ignored) : ∀ p ∈ settings, σ.isSwitch? p.1 = some p.2.isSwitch := by
  induction h with
  | done | ending => exact fun p hp => absurd hp List.not_mem_nil
  | argument _ _ ih => exact ih
  | setting hspells _ ih => exact List.forall_mem_cons.2 ⟨hspells.isSwitch?_eq, ih⟩
  | overlong hword _ ih => exact List.forall_mem_cons.2 ⟨hword.isSwitch?_eq, ih⟩

theorem Options.FlagSet.signature_parse {s s' : FlagSet} {words : List Text} (h : s.parse words = (s', none)) :
    s'.signature = s.signature := by
  obtain ⟨args, settings, ignored, hreads, heq⟩ := exists_reads_of_parseRest (congrArg Prod.snd h)
  obtain rfl : s' = _ := congrArg Prod.fst (h.symm.trans heq)
  exact signature_after hreads.isSwitch?_eq args

theorem Options.FlagSet.textOf_of_isSwitch {s : FlagSet} {name : Text} (h : s.signature.isSwitch? name = some true) :
    decide (s.textOf name = "true") = s.isOn name := by
  obtain ⟨f, hf, -, hvalue⟩ := isSwitch?_eq_some h
  rw [textOf, isOn, hf, Option.map_some, Option.map_some, Option.getD_some]
  cases hv : f.value with
  | text t =>
    rw [hv] at hvalue
    cases hvalue
  | switch on => cases on <;> rfl

/-- An entry with both of its first values has both of its switches. -/
theorem Options.GroupEntry.exists_flag {entries : List GroupEntry} {name lead usage : Text} {first second : Bool}
    (h : ⟨name, lead, usage, some first, some second⟩ ∈ entries) (on : Bool) :
    ∃ f ∈ entries.flatMap flags, f.name = (if on then lead ++ name else lead ++ "no-" ++ name) ∧
      f.value.isSwitch = true := by
  cases on with
  | true => exact ⟨_, List.mem_flatMap.2 ⟨_, h, List.mem_cons_self⟩, rfl, rfl⟩
  | false => exact ⟨_, List.mem_flatMap.2 ⟨_, h, List.mem_cons_of_mem _ List.mem_cons_self⟩, rfl, rfl⟩

namespace Settings

variable {s : Settings} {fs prepared parsed : FlagSet} {words : List Text}

/-- The switches that the settings add to a set. -/
def switches (s : Settings) : List Flag :=
  generalFlags ++ s.warningGroup.entries.flatMap GroupEntry.flags ++ s.featureGroup.entries.flatMap GroupEntry.flags

theorem adds_withFlags (h : s.withFlags fs = (prepared, none)) : Adds fs prepared s.switches := by
  rw [withFlags] at h
  split at h
  · cases h
  · next hgeneral =>
    split at h
    · cases h
    · next hwarnings => exact ((adds_addAll hgeneral).trans (adds_addGroup hwarnings)).trans (adds_addGroup h)

/-- Every directive has a switch. -/
theorem exists_switch (s : Settings) (d : Directive) :
    ∃ f ∈ s.switches, f.name = d.name ∧ f.value.isSwitch = true := by
  simp only [switches, List.mem_append]
  cases d with
  | warnings on =>
    cases on with
    | true => exact ⟨_, .inl (.inl List.mem_cons_self), rfl, rfl⟩
    | false => exact ⟨_, .inl (.inl (List.mem_cons_of_mem _ List.mem_cons_self)), rfl, rfl⟩
  | warning w on =>
    have hentry : ⟨w.name, "W", w.description, some (s.warning w), some false⟩ ∈ s.warningGroup.entries :=
      List.mem_map.2 ⟨w, by cases w <;> decide, rfl⟩
    obtain ⟨f, hf, hname, hvalue⟩ := GroupEntry.exists_flag hentry on
    refine ⟨f, .inl (.inr hf), ?_, hvalue⟩
    cases on <;> exact hname
  | feature g on =>
    have hentry : ⟨g.name, "F", g.description, some (s.feature g), some false⟩ ∈ s.featureGroup.entries :=
      List.mem_map.2 ⟨g, by cases g <;> decide, rfl⟩
    obtain ⟨f, hf, hname, hvalue⟩ := GroupEntry.exists_flag hentry on
    refine ⟨f, .inr hf, ?_, hvalue⟩
    cases on <;> exact hname

theorem isSwitch?_withFlags (h : s.withFlags fs = (prepared, none)) (d : Directive) :
    prepared.signature.isSwitch? d.name = some true := by
  obtain ⟨f, hf, hname, hvalue⟩ := s.exists_switch d
  rw [← hname]
  exact isSwitch?_of_lookup ((adds_withFlags h).2 f hf) hvalue

/-- A line on a prepared set changes the settings as the names of the switches that it leaves on do. -/
theorem applyFlags_eq (h : s.withFlags fs = (prepared, none)) (hparse : prepared.parse words = (parsed, none))
    (s' : Settings) : s'.applyFlags parsed = (s'.decided (parsed.visited.filter parsed.isOn), none) := by
  have hkind (d : Directive) : parsed.signature.isSwitch? d.name = some true :=
    signature_parse hparse ▸ isSwitch?_withFlags h d
  rw [applyFlags, applyNames_eq, switchedOn, decided_filter fun d => textOf_of_isSwitch (hkind d)]

/-- Names never fail to apply, and each switch is decided by the last name about it: a warning by its own names before
those about all warnings, in whatever order they stand. This is what a text of directives does that gives the names about
all warnings first, and names of anything else do nothing. A command line that is read without a mistake, on a set that
has the switches of the settings, does what the names of the switches do that it set and left on. -/
theorem last_name_decides (s : Settings) (names : List Text) :
    s.applyNames names = (s.decided names, none) ∧
    s.applyText (Text.join " " ((names.filter (· ∈ generalNames) ++ names.filter (· ∈ singleNames)).map
      (Text.ofString "-" ++ ·))) = (s.decided names, none) ∧
    s.applyNames (names.filter (· ∈ generalNames ++ singleNames)) = (s.decided names, none) ∧
    ∀ {first : Settings} {fs prepared parsed : FlagSet} {words : List Text},
      first.withFlags fs = (prepared, none) → prepared.parse words = (parsed, none) →
      s.applyFlags parsed = (s.decided (parsed.visited.filter parsed.isOn), none) := by
  refine ⟨s.applyNames_eq names, ?_, ?_, fun h hparse => applyFlags_eq h hparse s⟩
  · rw [applyText_names, applyNames_eq]
  · rw [applyNames_eq, decided_known]

/-- One warning is switched off, then all are switched on, and a feature is switched on and off again. -/
theorem shadow_off_before_all_on :
    let words : List Text := ["-Wno-shadow", "-Wall", "in.alw", "-Fstrict-term", "--Fstrict-term=false"]
    let prepared := (withFlags {} {}).1
    let parsed := (prepared.parse words).1
    let s : Settings := {}
    withFlags {} {} = (prepared, none) ∧ prepared.parse words = (parsed, none) ∧
      (s.applyFlags parsed).2 = none ∧
      Warning.all.map (s.applyFlags parsed).1.warning = [false, true, true, true] ∧
      (s.applyFlags parsed).1.feature .strictTerm = false := by
  intro words prepared parsed s
  have hprepared : withFlags {} {} = (prepared, none) := Prod.ext rfl (by decide)
  have hparsed : prepared.parse words = (parsed, none) := Prod.ext rfl (by decide)
  have happly := (last_name_decides s []).2.2.2 hprepared hparsed
  refine ⟨hprepared, hparsed, ?_, ?_, ?_⟩ <;> rw [happly]
  · decide
  · decide

end Settings

end AlgolMips
