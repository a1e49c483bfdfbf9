import AlgolMips.Proofs.OnePass

/-!
# Recovery goes by kinds

A translator never stops at a fault. Some faults take it another way through a production: the target of an assignment is
undeclared, a name is bound already, an operator has the wrong operands, a `read` has no variable. Each such way takes the
tokens that the other one takes.

The log of a translation tells what it does between which tokens (`Translator.marks`): a token is taken in place of one of a
kind, a token is found to be of a wrong kind, a scope is entered or left. These marks go by the kinds of the tokens and by
which of the input and output keywords are `read`. Names, types and settings have no say in them.
-/

namespace AlgolMips

open Gen Mips Parse

/-! ## Marks -/

namespace Sight

variable {α β : Type}

def map (f : α → β) : Sight α → Sight β
  | take k found => take k (f found)
  | wrong k found => wrong k (f found)
  | enter => enter
  | leave => leave

/-- The token that is taken. -/
def found? : Sight α → Option α
  | take _ found => some found
  | _ => none

/-- What is seen, each time with the number of tokens that were taken before. -/
def count : Nat → List (Sight α) → List (Nat × Sight α)
  | _, [] => []
  | n, take k found :: rest => (n, take k found) :: count (n + 1) rest
  | n, wrong k found :: rest => (n, wrong k found) :: count n rest
  | n, enter :: rest => (n, enter) :: count n rest
  | n, leave :: rest => (n, leave) :: count n rest

/-- The index of a token that is taken. -/
def taken? (m : Nat × Sight α) : Option Nat := m.2.found?.map fun _ => m.1

/-- The index of a token of a wrong kind, the kind that was asked for and the kind that was found. -/
def wrong? : Nat × Sight Kind → Option (Nat × Kind × Kind)
  | (n, wrong k found) => some (n, k, found)
  | _ => none

/-- Tokens are taken one after the other. -/
theorem taken_count (n : Nat) (sights : List (Sight α)) :
    (count n sights).filterMap taken? = List.range' n (sights.filterMap found?).length := by
  induction sights generalizing n with
  | nil => rfl
  | cons x rest ih =>
    cases x with
    | take k found => simp [count, taken?, found?, ih, List.range'_succ]
    | wrong | enter | leave => exact ih n

@[simp] theorem found?_map (f : α → β) (x : Sight α) : (x.map f).found? = x.found?.map f := by cases x <;> rfl

end Sight

/-- The token that an action takes. -/
def Action.found? (a : Action) : Option Token := a.sight?.bind Sight.found?

/-- What a translation does to its tokens and scopes, by the number of tokens that were taken before and by kinds. -/
def Translator.marks (t : Translator) : List (Nat × Sight Kind) :=
  Sight.count 0 ((t.work.log.toList.filterMap Action.sight?).map (Sight.map Token.kind))

/-- The marks of a translation are what it did. Its work was done by the actions of its log. It took the tokens of the source
one after the other and left the others. Its syntactic faults are the tokens of a wrong kind, each with the kind that was
asked for. -/
structure Translator.Marked (t : Translator) (s : Settings) (source : TokenSource) : Prop where
  work : t.work = (Work.start s.wordSize).run s t.work.log.toList
  taken : ∃ n, t.marks.filterMap Sight.taken? = List.range n ∧
    t.work.log.toList.filterMap Action.found? = (List.range n).map source.token ∧ t.source.tokens = source.tokens.drop n
  faults : t.work.diagnostics.toList.filter (fun d => d.fault.kind = .syntactic) =
    (t.marks.filterMap Sight.wrong?).map fun w => ⟨source.token w.1, .expected w.2.1 (source.token w.1)⟩

/-! ## Marks and plans -/

/-- A step takes the tokens that are seen to be taken. -/
theorem Step.found_sights (steps : List (Step Token)) :
    (steps.flatMap Step.sights).filterMap Sight.found? = steps.filterMap Step.found? := by
  induction steps with
  | nil => rfl
  | cons step rest ih =>
    rw [List.flatMap_cons, List.filterMap_append, ih]
    cases step with
    | take k tok =>
      by_cases h : tok.kind = k <;> simp [sights, Sight.taking, Sight.found?, found?, h, List.filterMap_cons]
    | _ => rfl

/-- The tokens of a wrong kind are seen where the steps by their indices take them. -/
theorem Step.wrong_count (f : Nat → Token) (n : Nat) (steps : List (Step Token)) :
    (Sight.count n ((((number n steps).map (map f)).flatMap sights).map (Sight.map Token.kind))).filterMap Sight.wrong? =
      (number n steps).filterMap (wrong? fun i => (f i).kind) := by
  induction steps generalizing n with
  | nil => rfl
  | cons step rest ih =>
    cases step with
    | take k tok =>
      have hrest := ih (n + 1)
      by_cases h : (f n).kind = k <;>
        simp [number, map, sights, Sight.taking, h, Sight.map, Sight.count, Sight.wrong?, wrong?, hrest, List.filterMap_cons]
    | pass | declare => exact ih (n + 1)
    | enter | leave => exact ih n

/-- Kinds alone decide what is seen of a step. -/
theorem Step.sights_kind {f g : Nat → Token} (h : ∀ i, (f i).kind = (g i).kind) (step : Step Nat) :
    (step.map f).sights.map (Sight.map Token.kind) = (step.map g).sights.map (Sight.map Token.kind) := by
  cases step with
  | take k i =>
    simp only [map, sights, Sight.taking, h i]
    split <;> simp [Sight.map, h i]
  | pass i | declare i => simp [map, sights, Sight.map, h i]
  | enter | leave => rfl

namespace TokenSource

/-- The marks of the plan for a source. -/
def marks (source : TokenSource) : List (Nat × Sight Kind) :=
  Sight.count 0 ((source.parse.1.steps.flatMap Step.sights).map (Sight.map Token.kind))

/-- Sources that look alike are marked alike. -/
theorem marks_eq {s s' : TokenSource} (h : ∀ n, (s.token n).shape = (s'.token n).shape) : s.marks = s'.marks := by
  have hkinds (i : Nat) : (s.token i).kind = (s'.token i).kind := (Token.mk.inj (h i)).1
  rw [marks, marks, ← s.map_plan.1, ← s'.map_plan.1, plan_eq h]
  simp only [List.flatMap_map, List.map_flatMap, Step.sights_kind hkinds]

theorem wrong_marks (source : TokenSource) : source.marks.filterMap Sight.wrong? = source.wrong := by
  rw [marks, ← source.map_plan.1]
  exact Step.wrong_count source.token 0 source.parse.1.steps

end TokenSource

theorem marks_translate (s : Settings) (source : TokenSource) : (translate s source).marks = source.marks := by
  rw [Translator.marks, (translate_logged s source).sights]
  rfl

/-- The plan for a source takes its tokens from the first on. -/
theorem TokenSource.exists_found_steps (source : TokenSource) : ∃ n,
    source.parse.1.steps.filterMap Step.found? = (List.range n).map source.token ∧ source.parse.2 = source.tokens.drop n := by
  obtain ⟨hsteps, n, hfound, hrest⟩ := source.map_plan
  have hmap (step : Step Nat) : (step.map source.token).found? = step.found?.map source.token := by cases step <;> rfl
  refine ⟨n, ?_, hrest⟩
  rw [← hsteps, List.filterMap_map, ← hfound, List.map_filterMap]
  exact congrArg (List.filterMap · source.plan) (funext hmap)

theorem translate_marked (s : Settings) (source : TokenSource) : (translate s source).Marked s source := by
  have hlogged := translate_logged s source
  obtain ⟨n, hfound, hrest⟩ := source.exists_found_steps
  refine ⟨hlogged.work, ⟨n, ?_, ?_, ?_⟩, ?_⟩
  -- Marks forget the tokens but for their kinds, so that the tokens taken can only be counted.
  · have hcount : ((source.parse.1.steps.flatMap Step.sights).map (Sight.map Token.kind)).filterMap Sight.found? =
        (source.parse.1.steps.filterMap Step.found?).map Token.kind := by
      rw [← Step.found_sights, List.filterMap_map, List.map_filterMap]
      exact congrArg (List.filterMap · _) (funext (Sight.found?_map Token.kind))
    rw [marks_translate, TokenSource.marks, Sight.taken_count, hcount, hfound, List.range_eq_range']
    simp
  · rw [← hfound, ← Step.found_sights, ← hlogged.sights, List.filterMap_filterMap]
    rfl
  · exact (goes_translate s source).tokens_eq.trans hrest
  · rw [(translate_agrees s source).diagnostics, (lower_goesByPlan s.wordSize source).faults, marks_translate,
      source.wrong_marks]

/-- Recovery goes by kinds. Let two sources agree in the kinds of their tokens, and in which of the input and output keywords
are `read`. Then, under any settings, their translations are marked alike: they take a token at the same steps in place of
the same kind, find tokens of a wrong kind at the same indices in the same order, and enter and leave scopes between the
same tokens. Both come to the end of the tokens or neither does. -/
theorem recovery_goes_by_kinds (settings settings' : Settings) (source source' : TokenSource)
    (h : ∀ n, (source.token n).kind = (source'.token n).kind ∧
      ((source.token n).kind = .inout → ((source.token n).value = "read" ↔ (source'.token n).value = "read"))) :
    let t := translate settings source
    let t' := translate settings' source'
    t.marks = t'.marks ∧ t.exhausted = t'.exhausted ∧ t.Marked settings source ∧ t'.Marked settings' source' := by
  intro t t'
  have hshape (n : Nat) : (source.token n).shape = (source'.token n).shape := Token.shape_eq (h n).1 (h n).2
  have hrest := (TokenSource.parse_alike Parse.telling_shape hshape).2
  refine ⟨?_, ?_, translate_marked settings source, translate_marked settings' source'⟩
  · rw [marks_translate, marks_translate, TokenSource.marks_eq hshape]
  · rw [(translate_agrees settings source).exhausted, (translate_agrees settings' source').exhausted]
    exact congrArg (fun k => decide (k = Kind.eof)) (hrest.nextKind_eq Parse.telling_shape rfl rfl)

/-- A declaration without a name, a declaration with one, and an assignment, up to the end of a program. -/
def misnamedInside (type literal name : Text) : List Token :=
  [.plain .typeName type, .plain .literal literal, .plain .semi ";", .plain .typeName type, .plain .ident name,
    .plain .semi ";", .plain .ident "x", .plain .assign ":=", .plain .literal literal, .plain .end "end", .plain .dot "."]

def misnamed (type literal name : Text) : TokenSource :=
  { tokens := .plain .begin "begin" :: misnamedInside type literal name }

theorem parse_misnamed (type literal name : Text) : (misnamed type literal name).parse =
    (.block (.plain .begin "begin")
      (.next (.declare (.plain .typeName type) (.plain .literal literal)) (.plain .semi ";")
        (.next (.declare (.plain .typeName type) (.plain .ident name)) (.plain .semi ";")
          (.last (.assign (.plain .ident "x") (.plain .assign ":=")
            (.term (.relation (.factor (.literal (.plain .literal literal)))))))))
      (.plain .end "end") (.plain .dot "."), []) := by
  have hassign (eof : Token) : (statement eof ((misnamedInside type literal name).drop 6)).val =
      (.assign (.plain .ident "x") (.plain .assign ":=") (.term (.relation (.factor (.literal (.plain .literal literal))))),
        [.plain .end "end", .plain .dot "."]) := by
    have hvalue : (expression eof [.plain .literal literal, .plain .end "end", .plain .dot "."]).val = _ :=
      (readsBack (.term (.relation (.factor (.literal (.plain .literal literal))))) rfl).expression_val (by decide)
    exact (statement_assign rfl).trans (congrArg (fun read => (Code.assign _ _ read.1, read.2)) hvalue)
  have hlast (eof : Token) : (body eof ((misnamedInside type literal name).drop 6)).val = _ :=
    body_last (by simp [misnamedInside, nextKind, Token.plain]) (hassign eof) rfl
  have hdeclare (eof tok : Token) (rest : List Token) :
      (statement eof (.plain .typeName type :: tok :: .plain .semi ";" :: rest)).val =
        (.declare (.plain .typeName type) tok, .plain .semi ";" :: rest) := statement_declare rfl
  have hmiddle (eof : Token) : (body eof ((misnamedInside type literal name).drop 3)).val = _ :=
    body_next (by simp [misnamedInside, nextKind, Token.plain])
      (hdeclare eof _ ((misnamedInside type literal name).drop 6)) (by simp [Token.plain])
  have hinside (eof : Token) : (body eof (misnamedInside type literal name)).val = _ :=
    body_next (by simp [misnamedInside, nextKind, Token.plain])
      (hdeclare eof _ ((misnamedInside type literal name).drop 3)) (by simp [Token.plain])
  have hprogram : (misnamed type literal name).parse = _ := program_block rfl
  rw [hprogram, hinside, hmiddle, hlast]
  rfl

def misnamedKinds : List Kind :=
  [.begin, .typeName, .literal, .semi, .typeName, .ident, .semi, .ident, .assign, .literal, .end, .dot]

theorem kind_misnamed (type literal name : Text) (n : Nat) :
    ((misnamed type literal name).token n).kind = misnamedKinds.getD n .eof :=
  (List.getD_map (misnamed type literal name).tokens _ Token.kind).symm

/-- The name is missed at the same place, whether the assignment behind it has a declared target or not. -/
theorem misnamed_marks :
    let t := translate {} (misnamed "integer" "1" "x")
    let t' := translate (({} : Settings).setFeature .strictTerm true) (misnamed "string" "true" "y")
    t.marks = t'.marks ∧ t.marks.filterMap Sight.wrong? = [(2, .ident, .literal)] ∧
      t.work.diagnostics.size = 1 ∧ t'.work.diagnostics.size = 2 := by
  intro t t'
  have hkinds (n : Nat) : misnamedKinds.getD n .eof ≠ .inout := by
    by_cases hn : n < misnamedKinds.length
    · have hall : ∀ n < misnamedKinds.length, misnamedKinds.getD n .eof ≠ .inout := by decide
      exact hall n hn
    · rw [List.getD_eq_default _ _ (Nat.le_of_not_lt hn)]
      decide
  obtain ⟨hmarks, -⟩ := recovery_goes_by_kinds {} (({} : Settings).setFeature .strictTerm true)
    (misnamed "integer" "1" "x") (misnamed "string" "true" "y") fun n =>
      ⟨by rw [kind_misnamed, kind_misnamed], fun hinout => absurd (kind_misnamed .. ▸ hinout) (hkinds n)⟩
  have hsize (s : Settings) (source : TokenSource) :
      (translate s source).work.diagnostics.size = (lower s.wordSize source).diagnostics.length := by
    rw [← (translate_agrees s source).diagnostics, Array.length_toList]
  refine ⟨hmarks, ?_, ?_, ?_⟩
  · rw [marks_translate, TokenSource.marks, parse_misnamed]
    decide +kernel
  · rw [hsize, lower, parse_misnamed]
    decide +kernel
  · rw [hsize, lower, parse_misnamed]
    decide +kernel

end AlgolMips
