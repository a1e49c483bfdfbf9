import AlgolMips.Options.FlagSet
import AlgolMips.Proofs.Texts

/-!
# Spellings of a command line

A command line is a sequence of arguments and of settings, each of them spelled in one of the documented ways, perhaps
with `--` and more arguments behind them. `Spells` has a rule for each spelling of a setting, and `Reads` says what a whole
command line means: its arguments, its settings, and the texts in it that have no meaning. The only such text is one
behind the shorthand of a switch.

Reading inverts spelling. What a word is depends on the signature of the set alone, which no setting changes, so a set of
plain names reads every spelled line as it was meant (`Reads.parseRest_eq`).
-/

namespace AlgolMips.Options

/-! ## Spellings -/

/-- What a set knows of its flags besides their values: whether the flag with a long name is a switch, and the long name
behind a shorthand. -/
structure Signature where
  isSwitch? : Text → Option Bool
  named? : UInt8 → Option Text

def FlagSet.signature (s : FlagSet) : Signature where
  isSwitch? name := (s.lookup name).map fun f => f.value.isSwitch
  named? x := s.shorthands.lookup ⟨[x]⟩

/-- The dashes before a long name. -/
inductive Dashes where
  | one
  | two

def Dashes.text : Dashes → Text
  | one => "-"
  | two => "--"

/-- The shorthand `x` with `rest` behind it is no long name, with or without a value. -/
def Signature.Unnamed (σ : Signature) (x : UInt8) (rest : Text) : Prop :=
  σ.isSwitch? (Text.cut 0x3D ⟨x :: rest.bytes⟩).1 = none

instance (σ : Signature) (x : UInt8) (rest : Text) : Decidable (σ.Unnamed x rest) :=
  inferInstanceAs (Decidable (_ = none))

/-- `Spells σ words name v`: the words set the flag `name` to the value `v`. -/
inductive Spells (σ : Signature) : List Text → Text → FlagValue → Prop where
  /-- `--name` of a switch. -/
  | switch (d : Dashes) {name : Text} :
      σ.isSwitch? name = some true → Spells σ [d.text ++ name] name (.switch true)
  /-- `--name=b` of a switch. -/
  | truth (d : Dashes) {name t : Text} {on : Bool} :
      σ.isSwitch? name = some true → parseBool? t = some on → Spells σ [d.text ++ name ++ "=" ++ t] name (.switch on)
  /-- `--name=` of a switch. -/
  | blank (d : Dashes) {name : Text} :
      σ.isSwitch? name = some true → Spells σ [d.text ++ name ++ "=" ++ ""] name (.switch true)
  /-- `--name=v` of a text. -/
  | joined (d : Dashes) {name : Text} (t : Text) :
      σ.isSwitch? name = some false → Spells σ [d.text ++ name ++ "=" ++ t] name (.text t)
  /-- `--name v` of a text. -/
  | apart (d : Dashes) {name : Text} (t : Text) :
      σ.isSwitch? name = some false → Spells σ [d.text ++ name, t] name (.text t)
  /-- `-x` of a switch. -/
  | letter {x : UInt8} {name : Text} :
      σ.named? x = some name → σ.isSwitch? name = some true → σ.Unnamed x "" →
      Spells σ [⟨[0x2D, x]⟩] name (.switch true)
  /-- `-xv` of a text. -/
  | letterJoined {x : UInt8} {name t : Text} :
      σ.named? x = some name → σ.isSwitch? name = some false → σ.Unnamed x t → t ≠ "" →
      Spells σ [⟨0x2D :: x :: t.bytes⟩] name (.text t)
  /-- `-x v` of a text. -/
  | letterApart {x : UInt8} {name : Text} (t : Text) :
      σ.named? x = some name → σ.isSwitch? name = some false → σ.Unnamed x "" →
      Spells σ [⟨[0x2D, x]⟩, t] name (.text t)

/-- `Overlong σ word name t`: the word is the shorthand of the switch `name`, with the text `t` behind it. -/
def Overlong (σ : Signature) (word name t : Text) : Prop :=
  ∃ x : UInt8, word = ⟨0x2D :: x :: t.bytes⟩ ∧ σ.named? x = some name ∧ σ.isSwitch? name = some true ∧
    σ.Unnamed x t ∧ t ≠ ""

/-- A word that is an argument: shorter than two bytes, or not beginning with a dash. -/
def IsArgument (word : Text) : Prop := word.size < 2 ∨ word.bytes.head? ≠ some 0x2D

instance (word : Text) : Decidable (IsArgument word) := inferInstanceAs (Decidable (_ ∨ _))

/-- `Reads σ words args settings ignored`: the words of a command line give these arguments and settings, each in order,
and the texts `ignored` among them have no meaning. -/
inductive Reads (σ : Signature) : List Text → List Text → List (Text × FlagValue) → List Text → Prop where
  | done : Reads σ [] [] [] []
  | ending (rest : List Text) : Reads σ ("--" :: rest) rest [] []
  | argument {word : Text} {words args ignored : List Text} {settings : List (Text × FlagValue)} :
      IsArgument word → Reads σ words args settings ignored → Reads σ (word :: words) (word :: args) settings ignored
  | setting {front words args ignored : List Text} {settings : List (Text × FlagValue)} {name : Text} {v : FlagValue} :
      Spells σ front name v → Reads σ words args settings ignored →
      Reads σ (front ++ words) args ((name, v) :: settings) ignored
  | overlong {word name t : Text} {words args ignored : List Text} {settings : List (Text × FlagValue)} :
      Overlong σ word name t → Reads σ words args settings ignored →
      Reads σ (word :: words) args ((name, .switch true) :: settings) (t :: ignored)

/-! ## Plain names -/

/-- A long name that can be told from its dashes and its value. -/
def PlainName (name : Text) : Prop := name ≠ "" ∧ 0x3D ∉ name.bytes ∧ name.bytes.head? ≠ some 0x2D

instance (name : Text) : Decidable (PlainName name) := inferInstanceAs (Decidable (_ ∧ _ ∧ _))

/-- A plain name is cut off from the value behind it. -/
theorem PlainName.cut_append {name rest : Text} (h : PlainName name)
    (hrest : rest = "" ∨ rest.bytes.head? = some 0x3D) : (Text.cut 0x3D (name ++ rest)).1 = name := by
  rcases hrest with rfl | hrest
  · rw [Text.append_empty, Text.cut_of_not_mem h.2.1]
  · obtain ⟨back, hback⟩ := List.head?_eq_some_iff.1 hrest
    obtain ⟨rest⟩ := rest
    subst hback
    exact congrArg Prod.fst (Text.cut_append h.2.1 back)

/-- A set whose long names are plain and whose shorthands are single bytes other than the dash. -/
structure FlagSet.Plain (s : FlagSet) : Prop where
  names : ∀ f ∈ s.flags, PlainName f.name
  shorthands : ∀ p ∈ s.shorthands, ∃ x : UInt8, x ≠ 0x2D ∧ p.1 = ⟨[x]⟩

/-- What a plain set is seen to be from its signature. -/
structure Signature.Plain (σ : Signature) : Prop where
  name : ∀ {name : Text} {b : Bool}, σ.isSwitch? name = some b → PlainName name
  letter : ∀ {x : UInt8} {name : Text}, σ.named? x = some name → x ≠ 0x2D

namespace FlagSet

variable {s : FlagSet}

theorem lookup_eq_some {name : Text} {f : Flag} (h : s.lookup name = some f) : f ∈ s.flags ∧ f.name = name :=
  ⟨List.mem_of_find?_eq_some h, by simpa using List.find?_some h⟩

theorem isSwitch?_eq_some {name : Text} {b : Bool} (h : s.signature.isSwitch? name = some b) :
    ∃ f, s.lookup name = some f ∧ f.name = name ∧ f.value.isSwitch = b := by
  obtain ⟨f, hf, hb⟩ := Option.map_eq_some_iff.1 h
  exact ⟨f, hf, (lookup_eq_some hf).2, hb⟩

theorem Plain.signature (hs : s.Plain) : s.signature.Plain where
  name h := by
    obtain ⟨f, hf, rfl, _⟩ := isSwitch?_eq_some h
    exact hs.names f (lookup_eq_some hf).1
  letter {x name} h := by
    obtain ⟨front, back, heq, _⟩ := List.lookup_eq_some_iff.1 h
    obtain ⟨y, hy, hletter⟩ := hs.shorthands (⟨[x]⟩, name) (by rw [heq]; simp)
    cases hletter
    exact hy

/-! ## Reading one word -/

theorem read_argument {word : Text} (h : IsArgument word) : s.read word = .argument := by
  obtain ⟨bytes⟩ := word
  unfold read
  split
  · next b rest heq =>
    cases heq
    rcases h with h | h
    · exact absurd h (by simp [Text.size])
    · exact absurd rfl h
  · rfl

/-- A word that begins with dashes and a long name is read as that name, whatever value follows. -/
theorem read_long (d : Dashes) {name : Text} {f : Flag} (hname : PlainName name) (hf : s.lookup name = some f)
    {rest : Text} (hrest : rest = "" ∨ rest.bytes.head? = some 0x3D) :
    s.read (d.text ++ name ++ rest) = s.readNamed d.text (name ++ rest) := by
  have hcut := hname.cut_append hrest
  obtain ⟨hne, -, hdash⟩ := hname
  obtain ⟨bytes⟩ := name
  cases bytes with
  | nil => exact absurd rfl hne
  | cons b front =>
    cases d with
    | two => rfl
    | one =>
      show (if b = 0x2D then _ else if (s.lookup (Text.cut 0x3D (⟨b :: front⟩ ++ rest)).1).isSome then _ else _) = _
      rw [if_neg fun h => hdash (congrArg some h), hcut, hf]
      rfl

theorem read_bare (d : Dashes) {name : Text} {f : Flag} (hname : PlainName name) (hf : s.lookup name = some f) :
    s.read (d.text ++ name) = if f.value.isSwitch then .value f "" else .needsValue f (d.text ++ name) := by
  have hne : name.isEmpty = false := List.isEmpty_eq_false_iff.2 fun h => hname.1 (congrArg Text.mk h)
  rw [← Text.append_empty (d.text ++ name), read_long d hname hf (.inl rfl), Text.append_empty, Text.append_empty,
    readNamed, Text.cut_of_not_mem hname.2.1]
  simp only [hne, hf, Bool.false_eq_true, if_false]

theorem read_joined (d : Dashes) {name : Text} {f : Flag} (hname : PlainName name) (hf : s.lookup name = some f)
    (t : Text) : s.read (d.text ++ name ++ "=" ++ t) = .value f t := by
  have hne : name.isEmpty = false := List.isEmpty_eq_false_iff.2 fun h => hname.1 (congrArg Text.mk h)
  have hcut : Text.cut 0x3D (name ++ ("=" ++ t)) = (name, some t) := Text.cut_append hname.2.1 t.bytes
  rw [Text.append_assoc (d.text ++ name), read_long d hname hf (.inr rfl), readNamed, hcut]
  simp only [hne, hf, Bool.false_eq_true, if_false]

/-- A word that is no long name is read by its first byte. -/
theorem read_letter {x : UInt8} {name rest : Text} {f : Flag} (hx : x ≠ 0x2D)
    (hnamed : s.signature.named? x = some name) (hf : s.lookup name = some f) (hrest : s.signature.Unnamed x rest) :
    s.read ⟨0x2D :: x :: rest.bytes⟩ =
      if f.value.isSwitch then .value f ""
      else if rest.isEmpty then .needsValue f ("-" ++ ⟨[x]⟩) else .value f rest := by
  have hnone : s.lookup (Text.cut 0x3D ⟨x :: rest.bytes⟩).1 = none := Option.map_eq_none_iff.1 hrest
  have hshort : s.lookupShort ⟨[x]⟩ = some f := by
    rw [lookupShort, show s.shorthands.lookup ⟨[x]⟩ = some name from hnamed]
    exact hf
  show (if x = 0x2D then _ else if (s.lookup (Text.cut 0x3D ⟨x :: rest.bytes⟩).1).isSome then _ else _) = _
  rw [if_neg hx, hnone]
  show s.readShort ⟨[x]⟩ rest = _
  rw [readShort, hshort]

/-! ## Setting flags -/

section Values

variable {v w : FlagValue}

theorem assigned_text (h : v.isSwitch = false) (t : Text) : assigned v t = .ok (.text t) := by
  cases v with
  | text u => rfl
  | switch on => cases h

theorem assigned_empty (h : v.isSwitch = true) : assigned v "" = .ok (.switch true) := by
  cases v with
  | text u => cases h
  | switch on => rfl

theorem assigned_truth (h : v.isSwitch = true) {t : Text} {on : Bool} (ht : parseBool? t = some on) :
    assigned v t = .ok (.switch on) := by
  cases v with
  | text u => cases h
  | switch old =>
    have hne : t.isEmpty = false := by
      refine List.isEmpty_eq_false_iff.2 fun hempty => ?_
      obtain ⟨bytes⟩ := t
      subst hempty
      rw [show parseBool? ⟨[]⟩ = none by decide] at ht
      cases ht
    simp only [assigned, hne, ht, Bool.false_eq_true, if_false]

end Values

/-- Flags with the last of the settings of each of them. -/
def settle (settings : List (Text × FlagValue)) (flags : List Flag) : List Flag :=
  flags.map fun f => { f with value := (settings.reverse.lookup f.name).getD f.value }

/-- A set after further arguments and settings. -/
def after (s : FlagSet) (args : List Text) (settings : List (Text × FlagValue)) : FlagSet :=
  { s with
    flags := settle settings s.flags
    args := s.args ++ args
    visited := s.visited ++ settings.map Prod.fst }

theorem settle_settle (first second : List (Text × FlagValue)) (flags : List Flag) :
    settle second (settle first flags) = settle (first ++ second) flags := by
  simp only [settle, List.map_map]
  refine List.map_congr_left fun f _ => ?_
  simp only [Function.comp_apply, List.reverse_append, List.lookup_append]
  cases second.reverse.lookup f.name <;> rfl

theorem after_nil (s : FlagSet) : s.after [] [] = s := by
  simp [after, settle]

theorem after_after (s : FlagSet) (args args' : List Text) (settings settings' : List (Text × FlagValue)) :
    (s.after args settings).after args' settings' = s.after (args ++ args') (settings ++ settings') := by
  simp [after, settle_settle]

theorem assign_eq {f : Flag} {t : Text} {v : FlagValue} (h : assigned f.value t = .ok v) :
    s.assign f t = .ok (s.after [] [(f.name, v)]) := by
  have hflags : (s.flags.map fun g => if g.name = f.name then { g with value := v } else g) =
      settle [(f.name, v)] s.flags := by
    refine List.map_congr_left fun g _ => ?_
    by_cases hg : g.name = f.name
    · simp [hg]
    · simp [List.lookup_cons, hg, beq_eq_false_iff_ne.2 hg]
  simp only [assign, h, hflags, after, List.append_nil]
  rfl

/-- Settings of the right kinds leave the signature as it is. -/
theorem signature_after {settings : List (Text × FlagValue)}
    (h : ∀ p ∈ settings, s.signature.isSwitch? p.1 = some p.2.isSwitch) (args : List Text) :
    (s.after args settings).signature = s.signature := by
  refine congrArg (Signature.mk · _) (funext fun name => ?_)
  have hfind : (s.after args settings).lookup name = (s.lookup name).map
      fun f => { f with value := (settings.reverse.lookup f.name).getD f.value } := List.find?_map ..
  rw [hfind, Option.map_map]
  refine Option.map_congr fun f hf => ?_
  cases hlast : settings.reverse.lookup f.name with
  | none => simp [hlast]
  | some v =>
    obtain ⟨front, back, heq, _⟩ := List.lookup_eq_some_iff.1 hlast
    have hmem : (f.name, v) ∈ settings := by
      rw [← List.mem_reverse, heq]
      simp
    obtain ⟨g, hg, _, hkind⟩ := isSwitch?_eq_some (h _ hmem)
    rw [(lookup_eq_some hf).2, hf] at hg
    cases hg
    simp [hlast, hkind]

/-! ## Reading a line -/

/-- The words are read as a text for a flag, which stands in the one word or is the second of two. -/
def Takes (s : FlagSet) (words : List Text) (f : Flag) (t : Text) : Prop :=
  (∃ word, words = [word] ∧ s.read word = .value f t) ∨
    ∃ word spelling, words = [word, t] ∧ s.read word = .needsValue f spelling

/-- Words that set a flag are followed by the rest of the line, which finds the same signature. -/
theorem Takes.parseRest_eq {words rest : List Text} {f : Flag} {t : Text} (h : s.Takes words f t) {v : FlagValue}
    (hv : assigned f.value t = .ok v) (hkind : s.signature.isSwitch? f.name = some v.isSwitch) {args : List Text}
    {settings : List (Text × FlagValue)}
    (hrest : ∀ s' : FlagSet, s'.signature = s.signature → s'.parseRest rest = (s'.after args settings, none)) :
    s.parseRest (words ++ rest) = (s.after args ((f.name, v) :: settings), none) := by
  have hstep : s.parseRest (words ++ rest) = (s.after [] [(f.name, v)]).parseRest rest := by
    rcases h with ⟨word, rfl, hread⟩ | ⟨word, spelling, rfl, hread⟩ <;> simp [parseRest, hread, assign_eq hv]
  rw [hstep, hrest _ (signature_after (List.forall_mem_singleton.2 hkind) []), after_after]
  rfl

end FlagSet

open FlagSet

variable {s : FlagSet} {words : List Text} {name : Text} {v : FlagValue}

theorem Spells.isSwitch?_eq {σ : Signature} (h : Spells σ words name v) : σ.isSwitch? name = some v.isSwitch := by
  cases h with
  | switch _ hk | truth _ hk | blank _ hk | joined _ _ hk | apart _ _ hk => exact hk
  | letter _ hk | letterJoined _ hk | letterApart _ _ hk => exact hk

/-- A spelled setting is read as a text for its flag, and the text as the value that was meant. -/
theorem Spells.takes (hs : s.signature.Plain) (h : Spells s.signature words name v) :
    ∃ f t, f.name = name ∧ assigned f.value t = .ok v ∧ s.Takes words f t := by
  obtain ⟨f, hf, hname, hkind⟩ := isSwitch?_eq_some h.isSwitch?_eq
  have hplain := hs.name h.isSwitch?_eq
  cases h with
  | switch d =>
    refine ⟨f, "", hname, assigned_empty hkind, .inl ⟨_, rfl, ?_⟩⟩
    rw [read_bare d hplain hf, hkind]
    rfl
  | truth d _ ht => exact ⟨f, _, hname, assigned_truth hkind ht, .inl ⟨_, rfl, read_joined d hplain hf _⟩⟩
  | blank d => exact ⟨f, _, hname, assigned_empty hkind, .inl ⟨_, rfl, read_joined d hplain hf _⟩⟩
  | joined d t => exact ⟨f, t, hname, assigned_text hkind t, .inl ⟨_, rfl, read_joined d hplain hf t⟩⟩
  | apart d t =>
    refine ⟨f, t, hname, assigned_text hkind t, .inr ⟨_, d.text ++ name, rfl, ?_⟩⟩
    rw [read_bare d hplain hf, hkind]
    rfl
  | @letter x _ hx _ hrest =>
    refine ⟨f, "", hname, assigned_empty hkind, .inl ⟨_, rfl, ?_⟩⟩
    have hread := read_letter (hs.letter hx) hx hf hrest
    rw [hkind] at hread
    exact hread
  | @letterJoined x _ t hx _ hrest ht =>
    refine ⟨f, t, hname, assigned_text hkind t, .inl ⟨_, rfl, ?_⟩⟩
    have hne : t.isEmpty = false := List.isEmpty_eq_false_iff.2 fun h => ht (congrArg Text.mk h)
    rw [read_letter (hs.letter hx) hx hf hrest, hkind, hne]
    rfl
  | @letterApart x _ t hx _ hrest =>
    refine ⟨f, t, hname, assigned_text hkind t, .inr ⟨_, "-" ++ ⟨[x]⟩, rfl, ?_⟩⟩
    have hread := read_letter (hs.letter hx) hx hf hrest
    rw [hkind] at hread
    exact hread

/-- An overlong word switches its flag on. -/
theorem Overlong.takes (hs : s.signature.Plain) {word t : Text} (h : Overlong s.signature word name t) :
    ∃ f, f.name = name ∧ f.value.isSwitch ∧ s.Takes [word] f "" := by
  obtain ⟨x, rfl, hx, hk, hrest, -⟩ := h
  obtain ⟨f, hf, hname, hkind⟩ := isSwitch?_eq_some hk
  refine ⟨f, hname, hkind, .inl ⟨_, rfl, ?_⟩⟩
  rw [read_letter (hs.letter hx) hx hf hrest, if_pos hkind]

theorem Overlong.isSwitch?_eq {σ : Signature} {word t : Text} (h : Overlong σ word name t) :
    σ.isSwitch? name = some true := by
  obtain ⟨-, -, -, hk, -⟩ := h
  exact hk

/-- A line is read as it was meant, from any state of a set with its signature. -/
theorem Reads.parseRest_eq {args ignored : List Text} {settings : List (Text × FlagValue)} {σ : Signature}
    (hσ : σ.Plain) (h : Reads σ words args settings ignored) (s : FlagSet) (hs : s.signature = σ) :
    s.parseRest words = (s.after args settings, none) := by
  induction h generalizing s with
  | done => rw [FlagSet.parseRest, after_nil]
  | ending rest =>
    show ({ s with args := s.args ++ rest }, none) = _
    simp [after, settle]
  | @argument word words args ignored settings hword _ ih =>
    have hstep : s.parseRest (word :: words) = (s.after [word] []).parseRest words := by
      simp [FlagSet.parseRest, read_argument hword, after, settle]
    rw [hstep, ih _ ((signature_after (by simp) _).trans hs), after_after]
    rfl
  | setting hspells _ ih =>
    subst hs
    obtain ⟨f, t, rfl, hv, htakes⟩ := hspells.takes hσ
    exact htakes.parseRest_eq hv hspells.isSwitch?_eq ih
  | overlong hword _ ih =>
    subst hs
    obtain ⟨f, rfl, hkind, htakes⟩ := hword.takes hσ
    exact htakes.parseRest_eq (assigned_empty hkind) hword.isSwitch?_eq ih

/-- Reading inverts spelling. A set of plain names reads every line of documented spellings without a mistake: the
arguments are those of the line, the flags that were set are noted in order, as often as they were set, and each flag has
its last setting, or its value from before where it was not set. -/
theorem parse_spelled (s : FlagSet) (hs : s.Plain) {words args : List Text} {settings : List (Text × FlagValue)}
    (h : Reads s.signature words args settings []) :
    s.parse words =
      ({ s with
          flags := s.flags.map fun f => { f with value := (settings.reverse.lookup f.name).getD f.value }
          args := args
          visited := settings.map Prod.fst }, none) :=
  h.parseRest_eq hs.signature { s with args := [], visited := [] } rfl

/-- A text with a shorthand, a switch with one, and a switch without. -/
def sampleFlags : FlagSet where
  flags := [.ofText "output" "o" "out.s" "" "file", .ofSwitch "tokens" "t" false "", .ofSwitch "Wall" "" false ""]
  shorthands := [("o", "output"), ("t", "tokens")]

theorem sampleFlags_plain : sampleFlags.Plain where
  names := by decide
  shorthands := by
    intro p hp
    simp only [sampleFlags, List.mem_cons, List.not_mem_nil, or_false] at hp
    rcases hp with rfl | rfl
    · exact ⟨0x6F, by decide, rfl⟩
    · exact ⟨0x74, by decide, rfl⟩

/-- Values that look like flags, and a dash that ends them. -/
theorem sampleFlags_spelled :
    let words : List Text := ["-t", "a.alw", "-Wall", "--output=x.s", "-oy=z", "-tokens=F", "-o", "--", "--", "-t"]
    let args : List Text := ["a.alw", "-t"]
    let settings : List (Text × FlagValue) := [("tokens", .switch true), ("Wall", .switch true),
      ("output", .text "x.s"), ("output", .text "y=z"), ("tokens", .switch false), ("output", .text "--")]
    let read := sampleFlags.parse words
    sampleFlags.Plain ∧ Reads sampleFlags.signature words args settings [] ∧ read.2 = none ∧ read.1.args = args ∧
      read.1.visited = settings.map Prod.fst ∧
      read.1.flags.map Flag.value = [.text "--", .switch false, .switch true] := by
  intro words args settings read
  have hreads : Reads sampleFlags.signature words args settings [] := by
    refine .setting (.letter (x := 0x74) (by decide) (by decide) (by decide)) ?_
    refine .argument (by decide) ?_
    refine .setting (@Spells.switch _ .one "Wall" (by decide)) ?_
    refine .setting (@Spells.joined _ .two "output" "x.s" (by decide)) ?_
    refine .setting (.letterJoined (x := 0x6F) (t := "y=z") (by decide) (by decide) (by decide) (by decide)) ?_
    refine .setting (@Spells.truth _ .one "tokens" "F" false (by decide) (by decide)) ?_
    refine .setting (.letterApart (x := 0x6F) "--" (by decide) (by decide) (by decide)) ?_
    exact .ending ["-t"]
  have hread : read = _ := parse_spelled sampleFlags sampleFlags_plain hreads
  exact ⟨sampleFlags_plain, hreads, by rw [hread], by rw [hread], by rw [hread], by rw [hread]; decide⟩

end AlgolMips.Options
