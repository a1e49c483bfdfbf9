import AlgolMips.Proofs.Assembly
import Mathlib.Algebra.Group.Nat.Even
import Mathlib.Data.List.Forall2

/-!
# String constants in the assembly

The lines with string constants are, in order, those of the string literals of the program and those of the fixed
strings (`Program.constants_lower`). The text between the quotes of a literal is placed as it stands. An assembler,
though, takes a backslash together with the byte behind it, so the closing quote ends the constant only if the
backslashes right before it are even in number.
-/

namespace AlgolMips

open Gen Mips

/-! ## How a constant is read -/

namespace Mips

/-- What an assembler finds behind the closing quote of a string: a backslash takes the next byte with it. -/
def behindString? : List UInt8 → Option (List UInt8)
  | [] => none
  | 0x22 :: rest => some rest
  | 0x5C :: [] => none
  | 0x5C :: _ :: rest => behindString? rest
  | _ :: rest => behindString? rest

/-- A line ends with the quote that closes the first string on it. -/
def WellTerminated (line : Text) : Prop := (line.cut 0x22).2.bind (behindString? ·.bytes) = some []

instance : DecidablePred WellTerminated := fun line =>
  inferInstanceAs (Decidable ((line.cut 0x22).2.bind (behindString? ·.bytes) = some []))

/-- The number of backslashes at the end. -/
def backslashesAtEnd (bs : List UInt8) : Nat := (bs.reverse.takeWhile (· == 0x5C)).length

theorem backslashesAtEnd_cons (b : UInt8) (bs : List UInt8) :
    backslashesAtEnd (b :: bs) =
      if backslashesAtEnd bs = bs.length ∧ b = 0x5C then bs.length + 1 else backslashesAtEnd bs := by
  rw [backslashesAtEnd, List.reverse_cons, List.takeWhile_append, List.length_reverse]
  change (if backslashesAtEnd bs = bs.length then _ else _ : List UInt8).length = _
  by_cases hall : backslashesAtEnd bs = bs.length
  · by_cases hb : b = 0x5C <;> simp [hall, hb]
  · rw [if_neg hall, if_neg fun h => hall h.1]
    rfl

/-- A backslash makes no difference together with the byte behind it. -/
theorem even_backslashesAtEnd_cons_cons (b : UInt8) (bs : List UInt8) :
    Even (backslashesAtEnd (0x5C :: b :: bs)) ↔ Even (backslashesAtEnd bs) := by
  rw [backslashesAtEnd_cons, backslashesAtEnd_cons, List.length_cons]
  by_cases hall : backslashesAtEnd bs = bs.length
  · by_cases hb : b = 0x5C <;> simp [hall, hb, Nat.even_add_one]
  · have hlt : backslashesAtEnd bs ≠ bs.length + 1 := by
      have hle : backslashesAtEnd bs ≤ bs.reverse.length := (List.takeWhile_prefix _).length_le
      rw [List.length_reverse] at hle
      omega
    simp [hall, hlt]

/-- A quote behind a text without quotes ends the string if the backslashes before it are even in number. -/
theorem behindString?_append {bs : List UInt8} (h : 0x22 ∉ bs) :
    behindString? (bs ++ [0x22]) = some [] ↔ Even (backslashesAtEnd bs) := by
  induction bs using behindString?.induct with
  | case1 => decide
  | case2 rest => simp at h
  | case3 => decide
  | case4 b rest ih =>
    simp only [List.mem_cons, not_or] at h
    rw [even_backslashesAtEnd_cons_cons]
    exact ih h.2.2
  | case5 b rest hquote hslash hslash' ih =>
    simp only [List.mem_cons, not_or] at h
    have hb : b ≠ 0x5C := by
      rintro rfl
      cases rest with
      | nil => exact hslash rfl rfl
      | cons c rest => exact hslash' c rest rfl rfl
    rw [backslashesAtEnd_cons, if_neg (fun hand => hb hand.2), ← ih h.2, List.cons_append]
    rw [behindString?]
    · exact hquote
    · exact fun hslash => absurd hslash hb
    · exact fun _ _ hslash => absurd hslash hb

/-- The line of a constant under a numbered label is read to its end if the backslashes before the closing quote are even
in number. -/
theorem wellTerminated_asciiz (n : Nat) {v : Text} (h : 0x22 ∉ v.bytes) :
    WellTerminated (Line.asciiz (.generated n) 0 v).render ↔ Even (backslashesAtEnd v.bytes) := by
  have hregular : (Label.generated n).Regular := .inl ⟨n, rfl⟩
  have hopening : (Text.ofString ": .asciiz \"").bytes = (Text.ofString ": .asciiz ").bytes ++ [0x22] := rfl
  have hclosing : (Text.ofString "\"").bytes = [0x22] := rfl
  have hbytes : (Line.asciiz (.generated n) 0 v).render =
      ⟨(Label.generated n).name.bytes ++ (Text.ofString ": .asciiz ").bytes ++ 0x22 :: (v.bytes ++ [0x22])⟩ := by
    rw [Line.render_asciiz]
    exact congrArg Text.mk (by simp [hopening, hclosing])
  have hfront : 0x22 ∉ (Label.generated n).name.bytes ++ (Text.ofString ": .asciiz ").bytes := by
    rw [List.mem_append, not_or]
    exact ⟨fun hb => absurd (isNameByte_of_mem hregular.isLabelName hb) (by decide), by decide⟩
  rw [WellTerminated, hbytes, Text.cut_append hfront]
  exact behindString?_append h

end Mips

/-! ## The constants of a program -/

/-- Whether a line holds a string constant. -/
def Mips.Line.isConstant : Line → Bool
  | .asciiz _ _ _ => true
  | _ => false

/-- Whether a literal is a string. -/
def Token.isString (tok : Token) : Bool := Ty.ofLiteral tok.value = .string

/-- A line holds what stands between the quotes of a literal. -/
def Places (tok : Token) (line : Line) : Prop := ∃ n, line = .asciiz (.generated n) 0 (quoted tok.value)

namespace Gen

variable {s : GenState}

theorem constants_binary (remark : Text) (left right : Operand) (code : List Instr) (result : Ty) :
    ((binary remark left right code result).lines s).filter Line.isConstant = [] := by
  simp [lines_binary, operatorLines, Line.isConstant]

theorem constants_add (op : Token) (left right : Operand) :
    ((add op left right).lines s).filter Line.isConstant = [] := by
  unfold add
  split
  · exact constants_binary ..
  · simp

theorem constants_mul (op : Token) (left right : Operand) :
    ((mul op left right).lines s).filter Line.isConstant = [] := by
  unfold mul
  split
  · exact constants_binary ..
  · simp

theorem constants_compare (op : Token) (left right : Operand) :
    ((Gen.compare op left right).lines s).filter Line.isConstant = [] := by
  unfold Gen.compare
  split
  · simp
  · split
    · simp
    · exact constants_binary ..

theorem constants_negate (op : Token) (d : Operand) : ((negate op d).lines s).filter Line.isConstant = [] := by
  unfold negate
  split <;> simp [Line.isConstant]

theorem constants_literal (tok : Token) :
    List.Forall₂ Places ([tok].filter Token.isString) (((literal tok.value).lines s).filter Line.isConstant) := by
  by_cases hty : Ty.ofLiteral tok.value = .string
  · rw [(literal_string hty).1, show [tok].filter Token.isString = [tok] by simp [Token.isString, hty]]
    exact .cons ⟨s.labels, rfl⟩ .nil
  · rw [(literal_immediate hty).1]
    simp [Token.isString, hty, Line.isConstant]

theorem lines_reference (tok : Token) : (reference tok).lines s = [] := by
  cases h : s.table.resolve tok.value <;> simp [reference, h]

end Gen

theorem Expr.constants_lower {l : Level} (e : Expr l) (s : GenState) :
    List.Forall₂ Places (e.literals.filter Token.isString) ((e.lower.lines s).filter Line.isConstant) := by
  induction e generalizing s with
  | add left op right ihl ihr =>
    simpa [Expr.lower, Expr.literals, constants_add] using List.rel_append (ihl _) (ihr _)
  | mul left op right ihl ihr =>
    simpa [Expr.lower, Expr.literals, constants_mul] using List.rel_append (ihl _) (ihr _)
  | compare left op right ihl ihr =>
    simpa [Expr.lower, Expr.literals, constants_compare] using List.rel_append (ihl _) (ihr _)
  | term e ih | relation e ih | factor e ih => simpa [Expr.lower, Expr.literals] using ih _
  | missing => simp [Expr.lower, Expr.literals]
  | name tok => simp [Expr.lower, Expr.literals, lines_reference]
  | literal tok => simpa [Expr.lower, Expr.literals] using constants_literal tok
  | negation op e ih => simpa [Expr.lower, Expr.literals, constants_negate] using ih _
  | group opening e closing ih => simpa [Expr.lower, Expr.literals] using ih _

namespace Gen

variable {s : GenState}

theorem constants_storeIn (target : Token) (v : Variable) :
    ((storeIn target v).lines s).filter Line.isConstant = [] := by
  by_cases h : v.ty.assignable s.current.ty <;> simp [storeIn, h, Line.isConstant]

theorem constants_readCurrent (keyword : Token) : ((readCurrent keyword).lines s).filter Line.isConstant = [] := by
  cases hty : s.current.ty.readable <;> cases hplace : s.current.place.isLabel <;>
    simp [readCurrent, hty, hplace, Line.isConstant, call, callCode]

theorem constants_read (keyword opening : Token) (target : Option Token) (closing : Token) :
    ((read keyword opening target closing).lines s).filter Line.isConstant = [] := by
  cases target with
  | none => simp [read]
  | some tok =>
    cases h : (reference tok s).value <;> simp [read, h, lines_reference, constants_readCurrent]

theorem constants_write (keyword opening : Token) (value : Gen Unit) (closing : Token) :
    ((write keyword opening value closing).lines s).filter Line.isConstant =
      (value.lines s).filter Line.isConstant := by
  cases h : printLines (if keyword.value = "writeln" then "writeln" else "write") (value s).state.current with
  | none => rw [lines_write_none value h]
  | some ls =>
    have hprinted : ls.filter Line.isConstant = [] := by
      rcases printLines_cases h with ⟨type, -, rfl⟩ | rfl <;>
        simp [printLines.number, call, callCode, Line.isConstant]
    rw [lines_write value h]
    split <;> simp [hprinted, lineEndLines, call, callCode, Line.isConstant]

theorem constants_assignment (target sign : Token) (value : Gen Unit) {literals : List Token}
    (h : ∀ s, List.Forall₂ Places literals ((value.lines s).filter Line.isConstant)) :
    List.Forall₂ Places literals (((assignment target sign value).lines s).filter Line.isConstant) := by
  cases hresolve : s.table.resolve target.value with
  | error e => simpa [assignment, hresolve] using h _
  | ok v => simpa [assignment, hresolve, lines_reference, constants_storeIn] using h _

end Gen

/-- The constants that a statement leaves are those of its string literals, in order. -/
theorem Code.constants_lower {x : Extent} (c : Code x) (s : GenState) :
    List.Forall₂ Places (c.literals.filter Token.isString) ((c.lower.lines s).filter Line.isConstant) := by
  induction c generalizing s with
  | empty | done => simp [Code.lower, Code.literals]
  | declare type name => simp [Code.lower, Code.literals]
  | assign target sign value =>
    simpa [Code.lower, Code.literals] using constants_assignment target sign _ value.constants_lower
  | ifThen opening condition middle action ih =>
    simpa [Code.lower, Code.literals, lines_conditional, Line.isConstant] using
      List.rel_append (condition.constants_lower _) (ih _)
  | whileDo opening condition middle action ih =>
    simpa [Code.lower, Code.literals, lines_loop, Line.isConstant] using
      List.rel_append (condition.constants_lower _) (ih _)
  | block opening inside closing ih => simpa [Code.lower, Code.literals, lines_block] using ih _
  | read keyword opening target closing => simp [Code.lower, Code.literals, constants_read]
  | write keyword opening value closing =>
    simpa [Code.lower, Code.literals, constants_write] using value.constants_lower _
  | last c ih => simpa [Code.lower, Code.literals] using ih _
  | next c separator rest ihc ihr =>
    simpa [Code.lower, Code.literals] using List.rel_append (ihc _) (ihr _)

theorem Program.constants_body (p : Program) (s : GenState) :
    List.Forall₂ Places (p.literals.filter Token.isString) ((p.body.lines s).filter Line.isConstant) := by
  cases p with
  | bare stop => simp [Program.body, Program.literals]
  | block opening inside closing stop =>
    simpa [Program.body, Program.literals, lines_block] using inside.constants_lower _

/-- A scanned string is a text without quotes between two of them. -/
theorem eq_quoted {t : Text} (h : Scan.LiteralText t) (hs : Ty.ofLiteral t = .string) :
    t = "\"" ++ quoted t ++ "\"" ∧ 0x22 ∉ (quoted t).bytes := by
  refine ⟨?_, (h.clean_trimmed hs).1⟩
  cases h with
  | numeral hn => simp [Scan.LiteralText.ofLiteral_numeral hn] at hs
  | @quoted body =>
    rw [quoted, Text.append_assoc, Text.trimBeginning_append, Text.trimEnding_append, ← Text.append_assoc]
  | true | false => exact absurd hs (by decide)

/-- The lines of the fixed strings. -/
def fixedLines : List Line := fixedStrings.map fun (l, v) => .asciiz l 10 v

theorem wellTerminated_fixedLines : ∀ x ∈ fixedLines, WellTerminated x.render := by decide

/-- The constants of a whole program are those of its string literals, in order, and the fixed ones. -/
theorem Program.constants_lower (p : Program) (next : Token) (s : GenState) :
    ∃ placed, ((p.lower next).lines s).filter Line.isConstant = placed ++ fixedLines ∧
      List.Forall₂ Places (p.literals.filter Token.isString) placed := by
  refine ⟨_, ?_, p.constants_body s⟩
  have hprolog : prolog.filter Line.isConstant = [] := rfl
  have hpostlog : postlog.filter Line.isConstant = fixedLines := rfl
  rw [p.lines_lower_eq, List.filter_append, List.filter_append, hprolog, hpostlog]
  rfl

/-- Whatever the source and the settings are: the lines with string constants are those of the string literals of the
program, in order, and those of the fixed strings. The line of a literal holds what stands between its quotes, and its
closing quote ends the constant exactly if the backslashes before it are even in number. -/
theorem constant_wellTerminated_iff (settings : Settings) (file : Int) (source : List Char)
    (eofFile eofLine eofColumn : Int) :
    let tokens := (scan (settings.feature .comments) file source).tokens
    let input : TokenSource := ⟨tokens, eofFile, eofLine, eofColumn⟩
    let strings := input.parse.1.literals.filter Token.isString
    ∃ placed : List Line,
      (lower settings.wordSize input).lines.filter Line.isConstant = placed ++ fixedLines ∧
      (∀ x ∈ fixedLines, WellTerminated x.render) ∧
      (∀ tok ∈ strings, tok ∈ tokens ∧ tok.kind = .literal) ∧
      List.Forall₂ (fun tok line => ∃ n, ∃ body : Text, tok.value = "\"" ++ body ++ "\"" ∧
        line = .asciiz (.generated n) 0 body ∧
        (WellTerminated line.render ↔ Even (backslashesAtEnd body.bytes))) strings placed := by
  intro tokens input strings
  obtain ⟨placed, hlines, hplaced⟩ := input.parse.1.constants_lower (input.parse.2.headD input.eof)
    { frame := { wordSize := settings.wordSize } }
  have hsource : ∀ tok ∈ strings, tok ∈ tokens ∧ tok.kind = .literal := fun tok htok =>
    TokenSource.literals_parse input tok (List.mem_filter.1 htok).1
  have hquoted : ∀ tok ∈ strings, tok.value = "\"" ++ quoted tok.value ++ "\"" ∧ 0x22 ∉ (quoted tok.value).bytes :=
    fun tok htok => eq_quoted (Scanned.literalText_of_mem (hsource tok htok).1 (hsource tok htok).2)
      (of_decide_eq_true (List.mem_filter.1 htok).2)
  refine ⟨placed, hlines, wellTerminated_fixedLines, hsource,
    ((List.forall₂_and_left _ _).2 ⟨hquoted, hplaced⟩).imp ?_⟩
  rintro tok line ⟨⟨heq, hclean⟩, n, rfl⟩
  exact ⟨n, quoted tok.value, heq, rfl, wellTerminated_asciiz n hclean⟩

/-- A program that prints a backslash. -/
def backslashProgram : Program :=
  .block ⟨.begin, "begin", 0, 1, 1, 5⟩
    (.last (.write ⟨.inout, "write", 0, 1, 7, 5⟩ ⟨.lparen, "(", 0, 1, 13, 1⟩
      (.term (.relation (.factor (.literal ⟨.literal, "\"\\\"", 0, 1, 15, 3⟩)))) ⟨.rparen, ")", 0, 1, 19, 1⟩))
    ⟨.end, "end", 0, 1, 21, 3⟩ ⟨.dot, ".", 0, 1, 25, 1⟩

/-- Its constant is `"\"`, where the backslash takes the closing quote away. -/
theorem backslashProgram_not_wellTerminated :
    let tokens := (scan false 0 "begin write ( \"\\\" ) end .".toList).tokens
    tokens = backslashProgram.tokens ∧ (lower 4 { tokens }).diagnostics = [] ∧
    ∃ line ∈ (lower 4 { tokens }).lines, line = .asciiz (.generated 0) 0 "\\" ∧ ¬ WellTerminated line.render := by
  intro tokens
  have hv : backslashProgram.Valid := ⟨rfl, ⟨⟨rfl, by decide, rfl, rfl, rfl⟩, nofun⟩, rfl, rfl⟩
  have htokens : tokens = backslashProgram.tokens := by decide +kernel
  refine ⟨htokens, ?_⟩
  rw [htokens, lower_tokens hv]
  decide +kernel

end AlgolMips
