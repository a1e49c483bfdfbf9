import AlgolMips.Token.Reader
import Mathlib.Data.List.Induction
import Mathlib.Data.List.TakeWhile

/-!
# Scanning is faithful

Every segment of a source is one of the lexemes of the language (`Lexeme`), given the text before and behind it: words and
numbers are as long as they can be on both sides, comments and strings end where they must. Segments follow each other
without a gap, and each is placed by the line ends before it. A reader hands out the tokens among them one by one, and then
the end for ever.
-/

namespace AlgolMips

open Text (isBlank isLetter)

namespace Scan

/-! ## Classes of characters -/

theorem isDigit_iff {c : Char} : isDigit c ↔ 48 ≤ c.toNat ∧ c.toNat ≤ 57 := by
  simp only [isDigit, Bool.and_eq_true, decide_eq_true_eq]
  exact Iff.rfl

theorem isLetter_of_isDigit {c : Char} (h : isDigit c) : isLetter c = false := by
  have hcode : c.toNat < 0x41 := by
    have := isDigit_iff.1 h
    omega
  rw [isLetter, Text.letterRanges, Text.Ranges.holds, if_pos hcode]

/-- A number that some ranges hold lies in one of them. -/
theorem exists_of_holds {ranges : Text.Ranges} {n : Nat} (h : ranges.holds n) : ∃ r ∈ ranges, r.1 ≤ n ∧ n ≤ r.2 := by
  induction ranges with
  | nil => cases h
  | cons r rest ih =>
    obtain ⟨lo, hi⟩ := r
    simp only [Text.Ranges.holds] at h
    split at h
    · cases h
    · simp only [Bool.or_eq_true, decide_eq_true_eq] at h
      rcases h with hle | hrest
      · exact ⟨_, List.mem_cons_self, by omega, hle⟩
      · obtain ⟨r, hr, hin⟩ := ih hrest
        exact ⟨r, List.mem_cons_of_mem _ hr, hin⟩

/-- No blank is a letter or a digit. -/
theorem blankRanges_apart : (Text.blankRanges.all fun r => (List.range' r.1 (r.2 + 1 - r.1)).all fun n =>
    !Text.letterRanges.holds n && (n.blt 48 || Nat.blt 57 n)) = true := by
  decide +kernel

theorem isWordChar_of_isBlank {c : Char} (h : isBlank c) : isWordChar c = false := by
  obtain ⟨r, hr, hlo, hhi⟩ := exists_of_holds h
  have hall := List.all_eq_true.1 (List.all_eq_true.1 blankRanges_apart r hr) c.toNat
    (List.mem_range'_1.2 ⟨hlo, by omega⟩)
  simp only [Bool.and_eq_true, Bool.not_eq_true', Bool.or_eq_true, Nat.blt_eq] at hall
  obtain ⟨hletter, hdigit⟩ := hall
  have hnot : isDigit c = false := by
    rw [← Bool.not_eq_true, isDigit_iff]
    omega
  rw [isWordChar, isLetter, hletter, hnot]
  rfl

/-! ## Lexemes -/

/-- No word reaches up to the end of a text: it does not end with a letter and word characters behind it. -/
def WordStart (before : List Char) : Prop := ∀ c cs, c :: cs <:+ before → isLetter c → ¬ ∀ d ∈ cs, isWordChar d

/-- No number reaches up to the end of a text. -/
def NumberStart (before : List Char) : Prop := ∀ c ∈ before.getLast?, isDigit c = false

/-- The lexemes of the language, between the text before them and the text behind them: their text and their class. -/
inductive Lexeme (comments : Bool) (before : List Char) : List Char → List Char → SegmentClass → Prop where
  | blank {text after : List Char} :
      text ≠ [] → (∀ c ∈ text, isBlank c) → (∀ c ∈ after.head?, isBlank c = false) → Lexeme comments before text after .blank
  /-- A comment goes through the next semicolon, or to the end where there is none. -/
  | comment {body after : List Char} :
      comments → WordStart before → (∀ c ∈ (body ++ after).head?, isWordChar c = false) →
      ((∃ inner, body = inner ++ [';'] ∧ ';' ∉ inner) ∨ (';' ∉ body ∧ after = [])) →
      Lexeme comments before (commentWord ++ body) after .comment
  /-- A word can be made longer on neither side. -/
  | word {c : Char} {cs after : List Char} :
      isLetter c → (∀ d ∈ cs, isWordChar d) → WordStart before → (∀ d ∈ after.head?, isWordChar d = false) →
      ¬ (comments ∧ c :: cs = commentWord) →
      Lexeme comments before (c :: cs) after (.token ((Kind.ofKeyword? (Text.ofChars (c :: cs))).getD .ident))
  /-- A number can be made longer on neither side. -/
  | number {text after : List Char} :
      text ≠ [] → (∀ c ∈ text, isDigit c) → NumberStart before → (∀ c ∈ after.head?, isDigit c = false) →
      Lexeme comments before text after (.token .literal)
  | string {body after : List Char} :
      '"' ∉ body → '\n' ∉ body → Lexeme comments before ('"' :: body ++ ['"']) after (.token .literal)
  | unequal {after : List Char} : Lexeme comments before ['!', '='] after (.token .relOp)
  | not {after : List Char} : after.head? ≠ some '=' → Lexeme comments before ['!'] after (.token .not)
  | assign {after : List Char} : Lexeme comments before [':', '='] after (.token .assign)
  | single {c : Char} {k : Kind} {after : List Char} :
      singleKind? c = some k → Lexeme comments before [c] after (.token k)
  | loneColon {after : List Char} : after.head? ≠ some '=' → Lexeme comments before [':'] after (.fault .loneColon)
  /-- A string without an end goes to the end of its line. -/
  | unterminated {body after : List Char} :
      '"' ∉ body → '\n' ∉ body → (∀ c ∈ after.head?, c = '\n') →
      Lexeme comments before ('"' :: body) after (.fault .unterminated)
  | unexpected {c : Char} {after : List Char} :
      isBlank c = false → isWordChar c = false → c ∉ ['!', ':', '"'] → singleKind? c = none →
      Lexeme comments before [c] after (.fault (.unexpected c))

/-- What follows a text may begin a word or a number of its own. -/
structure Boundary (before rest : List Char) : Prop where
  word : ∀ c ∈ rest.head?, isWordChar c → WordStart before
  number : ∀ c ∈ rest.head?, isDigit c → NumberStart before

theorem isWordChar_of_isLetter {c : Char} (h : isLetter c) : isWordChar c := by
  simp [isWordChar, h]

theorem isWordChar_of_isDigit {c : Char} (h : isDigit c) : isWordChar c := by
  simp [isWordChar, h]

theorem boundary_nil (rest : List Char) : Boundary [] rest where
  word := by
    rintro _ _ _ c cs hsuffix
    simp at hsuffix
  number := by
    rintro _ _ _ c hc
    simp at hc

/-- Behind a text that nothing continues. -/
theorem boundary_of_head {before rest : List Char} (h : ∀ c ∈ rest.head?, isWordChar c = false) :
    Boundary before rest where
  word c hc hword := absurd (h c hc) (by simp [hword])
  number c hc hdigit := absurd (h c hc) (by simp [isWordChar_of_isDigit hdigit])

/-- Behind a character that belongs to no word. -/
theorem boundary_of_last {before rest : List Char} {c : Char} (h : isWordChar c = false) :
    Boundary (before ++ [c]) rest where
  word := by
    rintro _ _ _ d ds ⟨front, heq⟩ hletter hall
    have hlast : (d :: ds).getLast? = some c := by simpa [List.getLast?_append] using congrArg List.getLast? heq
    rcases List.mem_cons.1 (List.mem_of_getLast? hlast) with rfl | hmem
    · simp [isWordChar_of_isLetter hletter] at h
    · simp [hall c hmem] at h
  number := by
    intro _ _ _ d hd
    obtain rfl : c = d := by simpa using hd
    simp only [isWordChar, Bool.or_eq_false_iff] at h
    exact h.2

/-- Digits do not make a word of what is before them. -/
theorem wordStart_append {before digits : List Char} (h : WordStart before) (hdigits : ∀ c ∈ digits, isDigit c) :
    WordStart (before ++ digits) := by
  rintro c cs ⟨front, heq⟩ hletter hall
  have hnot : c ∉ digits := fun hc => by
    have := isLetter_of_isDigit (hdigits c hc)
    simp [hletter] at this
  rcases List.append_eq_append_iff.1 heq with ⟨part, hbefore, htail⟩ | ⟨part, -, htail⟩
  · cases part with
    | nil =>
      rw [List.nil_append] at htail
      exact hnot (htail ▸ List.mem_cons_self)
    | cons d ds =>
      obtain ⟨rfl, rfl⟩ := List.cons.inj htail
      exact h c ds ⟨front, hbefore.symm⟩ hletter fun e he => hall e (List.mem_append_left _ he)
  · exact hnot (htail ▸ List.mem_append_right _ List.mem_cons_self)

/-! ## Cutting -/

theorem head?_dropWhile (p : Char → Bool) (cs : List Char) : ∀ c ∈ (cs.dropWhile p).head?, p c = false := by
  intro c hc
  have := List.head?_dropWhile_not p cs
  rw [Option.mem_def.1 hc] at this
  exact this

/-- What a comment takes after its word. -/
theorem throughSemicolon_spec (cs : List Char) :
    (∃ inner, (throughSemicolon cs).1 = inner ++ [';'] ∧ ';' ∉ inner) ∨
      (';' ∉ (throughSemicolon cs).1 ∧ (throughSemicolon cs).2 = []) := by
  induction cs with
  | nil => exact .inr ⟨List.not_mem_nil, rfl⟩
  | cons c cs ih =>
    by_cases hc : c = ';'
    · exact .inl ⟨[], by simp [throughSemicolon, hc]⟩
    · simp only [throughSemicolon, if_neg hc]
      rcases ih with ⟨inner, hinner, hnot⟩ | ⟨hnot, hrest⟩
      · exact .inl ⟨c :: inner, by simp [hinner], by simp [hnot, Ne.symm hc]⟩
      · exact .inr ⟨by simp [hnot, Ne.symm hc], hrest⟩

/-- What a string takes after its quote. -/
theorem throughQuote_spec (cs : List Char) :
    ((throughQuote cs).1 = true ∧ ∃ body, (throughQuote cs).2.1 = body ++ ['"'] ∧ '"' ∉ body ∧ '\n' ∉ body) ∨
      ((throughQuote cs).1 = false ∧ '"' ∉ (throughQuote cs).2.1 ∧ '\n' ∉ (throughQuote cs).2.1 ∧
        ∀ c ∈ (throughQuote cs).2.2.head?, c = '\n') := by
  induction cs with
  | nil => exact .inr ⟨rfl, List.not_mem_nil, List.not_mem_nil, by simp [throughQuote]⟩
  | cons c cs ih =>
    by_cases hline : c = '\n'
    · exact .inr (by simp [throughQuote, hline])
    · by_cases hquote : c = '"'
      · exact .inl ⟨by simp [throughQuote, hquote], [], by simp [throughQuote, hquote]⟩
      · simp only [throughQuote, if_neg hline, if_neg hquote]
        rcases ih with ⟨hclosed, body, hbody, hq, hn⟩ | ⟨hopen, hq, hn, hafter⟩
        · exact .inl ⟨hclosed, c :: body, by simp [hbody], by simp [hq, Ne.symm hquote], by simp [hn, Ne.symm hline]⟩
        · exact .inr ⟨hopen, by simp [hq, Ne.symm hquote], by simp [hn, Ne.symm hline], hafter⟩

/-- A cut takes a lexeme and stops where the next one may begin. -/
structure Cut.Proper (comments : Bool) (before : List Char) (k : Cut) : Prop where
  lexeme : Lexeme comments before k.text k.rest k.cls
  boundary : Boundary (before ++ k.text) k.rest

section

variable {comments : Bool} {before : List Char}

/-- A lexeme whose last character belongs to no word. -/
theorem proper_of_last {k : Cut} (front : List Char) (c : Char) (h : Lexeme comments before k.text k.rest k.cls)
    (htext : k.text = front ++ [c]) (hc : isWordChar c = false) : k.Proper comments before := by
  refine ⟨h, ?_⟩
  rw [htext, ← List.append_assoc]
  exact boundary_of_last hc

theorem proper_blank {c : Char} {cs : List Char} (hc : isBlank c) :
    Cut.Proper comments before ⟨.blank, c :: cs.takeWhile isBlank, cs.dropWhile isBlank⟩ := by
  have hall : ∀ d ∈ c :: cs.takeWhile isBlank, isBlank d :=
    List.forall_mem_cons.2 ⟨hc, fun d hd => List.mem_takeWhile_imp hd⟩
  have hlast := List.dropLast_concat_getLast (List.cons_ne_nil c (cs.takeWhile isBlank))
  refine proper_of_last _ _ (.blank (List.cons_ne_nil _ _) hall (head?_dropWhile isBlank cs)) hlast.symm ?_
  exact isWordChar_of_isBlank (hall _ (List.getLast_mem _))

theorem proper_word {c : Char} {cs : List Char} (hc : isLetter c) (hstart : WordStart before) :
    (cutWord comments (c :: cs.takeWhile isWordChar) (cs.dropWhile isWordChar)).Proper comments before := by
  have hafter := head?_dropWhile isWordChar cs
  unfold cutWord
  split
  · next h =>
    obtain ⟨hcomments, hword⟩ : comments ∧ c :: cs.takeWhile isWordChar = commentWord := by simpa using h
    rw [hword]
    have happend := throughSemicolon_append (cs.dropWhile isWordChar)
    have hspec := throughSemicolon_spec (cs.dropWhile isWordChar)
    have hlexeme : Lexeme comments before _ _ .comment := .comment hcomments hstart (happend.symm ▸ hafter) hspec
    rcases hspec with ⟨inner, hinner, -⟩ | ⟨-, hrest⟩
    · refine proper_of_last (commentWord ++ inner) ';' hlexeme ?_ (by decide +kernel)
      show commentWord ++ (throughSemicolon _).1 = _
      rw [hinner, List.append_assoc]
    · refine ⟨hlexeme, boundary_of_head ?_⟩
      show ∀ d ∈ (throughSemicolon _).2.head?, _
      simp [hrest]
  · next h =>
    have hword : ¬ (comments ∧ c :: cs.takeWhile isWordChar = commentWord) := by simpa using h
    exact ⟨.word hc (fun d hd => List.mem_takeWhile_imp hd) hstart hafter hword, boundary_of_head hafter⟩

theorem proper_number {c : Char} {cs : List Char} (hc : isDigit c) (hword : WordStart before)
    (hnumber : NumberStart before) :
    Cut.Proper comments before ⟨.token .literal, c :: cs.takeWhile isDigit, cs.dropWhile isDigit⟩ := by
  have hall : ∀ d ∈ c :: cs.takeWhile isDigit, isDigit d :=
    List.forall_mem_cons.2 ⟨hc, fun d hd => List.mem_takeWhile_imp hd⟩
  have hafter := head?_dropWhile isDigit cs
  refine ⟨.number (List.cons_ne_nil _ _) hall hnumber hafter, fun _ _ _ => wordStart_append hword hall, ?_⟩
  intro d hd hdigit
  exact absurd (hafter d hd) (by simp [hdigit])

theorem proper_sign {c : Char} {cs : List Char} {long short : SegmentClass} (hc : isWordChar c = false)
    (hlong : ∀ after, Lexeme comments before [c, '='] after long)
    (hshort : ∀ after : List Char, after.head? ≠ some '=' → Lexeme comments before [c] after short) :
    (cutSign c long short cs).Proper comments before := by
  unfold cutSign
  split
  · exact proper_of_last [c] '=' (hlong _) rfl (by decide +kernel)
  · next hne =>
    refine proper_of_last [] c (hshort _ ?_) rfl hc
    intro hhead
    obtain ⟨tail, rfl⟩ := List.head?_eq_some_iff.1 hhead
    exact hne tail rfl

theorem proper_quote (cs : List Char) : (cutQuote cs).Proper comments before := by
  have hspec := throughQuote_spec cs
  unfold cutQuote
  split
  · next body rest heq =>
    rw [heq] at hspec
    obtain ⟨-, inner, rfl, hquote, hline⟩ := hspec.resolve_right (by simp)
    exact proper_of_last ('"' :: inner) '"' (.string hquote hline) rfl (by decide +kernel)
  · next body rest heq =>
    rw [heq] at hspec
    obtain ⟨-, hquote, hline, hafter⟩ := hspec.resolve_left (by simp)
    refine ⟨.unterminated hquote hline hafter, boundary_of_head fun d hd => ?_⟩
    rw [hafter d hd]
    decide +kernel

/-- Every cut is proper. -/
theorem proper_cut (comments : Bool) {c : Char} {cs : List Char} (h : Boundary before (c :: cs)) :
    (cut comments c cs).Proper comments before := by
  have hword := h.word c rfl
  have hnumber := h.number c rfl
  unfold cut
  split
  · next hblank => exact proper_blank hblank
  split
  · next hletter => exact proper_word hletter (hword (isWordChar_of_isLetter hletter))
  split
  · next hdigit => exact proper_number hdigit (hword (isWordChar_of_isDigit hdigit)) (hnumber hdigit)
  next hblank hletter hdigit =>
  have hc : isWordChar c = false := by simp [isWordChar, hletter, hdigit]
  split
  · next hmark =>
    subst hmark
    exact proper_sign hc (fun _ => .unequal) fun _ => .not
  split
  · next hcolon =>
    subst hcolon
    exact proper_sign hc (fun _ => .assign) fun _ => .loneColon
  split
  · exact proper_quote cs
  next hmark hcolon hquote =>
  split
  · next k hk => exact proper_of_last [] c (.single hk) rfl hc
  · next hk =>
    refine proper_of_last [] c (.unexpected (by simpa using hblank) hc ?_ hk) rfl hc
    simp [hmark, hcolon, hquote]

end

/-! ## Places -/

theorem advance_append (p : Position) (cs ds : List Char) : p.advance (cs ++ ds) = (p.advance cs).advance ds :=
  List.foldl_append

/-- A place is known by the line ends before it and the characters after the last of them. -/
theorem advance_eq (cs : List Char) : Position.advance {} cs =
    ⟨1 + cs.count '\n', 1 + (cs.reverse.takeWhile (· ≠ '\n')).length⟩ := by
  induction cs using List.reverseRecOn with
  | nil => rfl
  | append_singleton cs c ih =>
    rw [advance_append, ih]
    by_cases hc : c = '\n'
    · simp [Position.advance, Position.after, hc]
      omega
    · simp [Position.advance, Position.after, hc]
      omega

/-! ## Segments -/

/-- Each segment is a lexeme between the segments before it and those behind it, and stands where the text before it
ends. The induction is on the segments, with the text before the source at hand. -/
theorem segmentsFrom_spec {comments : Bool} {before source : List Char} (h : Boundary before source)
    {front back : List Segment} {s : Segment}
    (hsplit : segmentsFrom comments (Position.advance {} before) source = front ++ s :: back) :
    let reached := before ++ front.flatMap Segment.text
    Lexeme comments reached s.text (back.flatMap Segment.text) s.cls ∧ s.start = Position.advance {} reached := by
  induction front generalizing before source with
  | nil =>
    cases source with
    | nil => simp [segmentsFrom] at hsplit
    | cons c cs =>
      rw [segmentsFrom, List.nil_append, List.cons.injEq] at hsplit
      obtain ⟨rfl, rfl⟩ := hsplit
      rw [flatMap_segmentsFrom]
      simpa using (proper_cut comments h).lexeme
  | cons first front ih =>
    cases source with
    | nil => simp [segmentsFrom] at hsplit
    | cons c cs =>
      rw [segmentsFrom, List.cons_append, List.cons.injEq] at hsplit
      obtain ⟨rfl, hrest⟩ := hsplit
      rw [← advance_append] at hrest
      simpa using ih (proper_cut comments h).boundary hrest

theorem mem_of_lookup {α : Type} [BEq α] [LawfulBEq α] {a : α} {k : Kind} {table : List (α × Kind)}
    (h : table.lookup a = some k) : (a, k) ∈ table := by
  obtain ⟨front, back, rfl, -⟩ := List.lookup_eq_some_iff.1 h
  simp

/-- No lexeme is the end of a source. -/
theorem Lexeme.kind_ne_eof {comments : Bool} {before text after : List Char} {k : Kind}
    (h : Lexeme comments before text after (.token k)) : k ≠ .eof := by
  generalize hcls : SegmentClass.token k = cls at h
  cases h with
  | @word c cs =>
    cases hcls
    cases hkind : Kind.ofKeyword? (Text.ofChars (c :: cs)) with
    | none => nofun
    | some kind =>
      have hall : ∀ entry ∈ Kind.keywords, entry.2 ≠ .eof := by decide
      exact hall _ (mem_of_lookup hkind)
  | single hk =>
    cases hcls
    rintro rfl
    have hmem := mem_of_lookup hk
    simp at hmem
  | number | string | unequal | not | assign =>
    cases hcls
    nofun
  | blank | comment | loneColon | unterminated | unexpected => cases hcls

end Scan

/-! ## Readers -/

namespace Segment

variable {file : Int} {s : Segment} {tok : Token}

theorem token?_eq_some_iff : s.token? file = some tok ↔ ∃ k, s.cls = .token k ∧
    tok = ⟨k, Text.ofChars s.text, file, s.start.line, s.start.column, s.text.length⟩ := by
  unfold token?
  split <;> simp_all [eq_comm]

theorem fault?_eq_some_iff {f : ScanFault} : s.fault? file = some (tok, f) ↔ s.cls = .fault f ∧
    tok = ⟨.eof, Text.ofChars s.text, file, s.start.line, s.start.column, s.text.length⟩ := by
  unfold fault?
  split <;> simp_all [eq_comm, and_comm]

end Segment

namespace Reader

variable {r : Reader}

/-- The segments that are left to a reader. -/
def segments (r : Reader) : List Segment := Scan.segmentsFrom r.comments r.place r.rest

/-- The tokens that are left to a reader. -/
def tokens (r : Reader) : List Token := r.segments.filterMap (Segment.token? r.file)

/-- A reader at the end of its source. -/
def finished (r : Reader) : Reader :=
  { r with
    place := r.place.advance r.rest
    rest := []
    faults := r.faults ++ r.segments.filterMap (Segment.fault? r.file) }

theorem finished_of_nil (h : r.rest = []) : r.finished = r := by
  obtain ⟨comments, file, place, rest, faults⟩ := r
  subst h
  simp [finished, segments, Scan.segmentsFrom, Position.advance]

theorem segments_of_cons {c : Char} {cs : List Char} (h : r.rest = c :: cs) :
    let first := Scan.cut r.comments c cs
    let s : Segment := ⟨r.place, first.text, first.cls⟩
    r.segments = s :: (r.pass s first.rest).segments := by
  rw [segments, h, Scan.segmentsFrom]
  rfl

/-- A reader that passes a segment has the same end before it. -/
theorem finished_pass {c : Char} {cs : List Char} (h : r.rest = c :: cs) :
    let first := Scan.cut r.comments c cs
    let s : Segment := ⟨r.place, first.text, first.cls⟩
    (r.pass s first.rest).finished = r.finished := by
  intro first s
  have hsegments := segments_of_cons h
  have hplace : (r.place.advance first.text).advance first.rest = r.place.advance r.rest := by
    rw [← Scan.advance_append, Scan.cut_append, h]
  have hfaults : r.faults ++ (s.fault? r.file).toList ++ (r.pass s first.rest).segments.filterMap (Segment.fault? r.file) =
      r.faults ++ r.segments.filterMap (Segment.fault? r.file) := by
    rw [hsegments, List.append_assoc, List.filterMap_cons]
    cases hfault : s.fault? r.file <;> simp [first, s]
  rw [finished, finished, ← hplace, ← hfaults]
  rfl

/-- What a reader does for a token: it is at its end and stays there, or hands out the first token that is left. -/
theorem next_spec (r : Reader) :
    (r.tokens = [] ∧ r.next = (r.finished.eof, r.finished)) ∨
      (r.next.1.isEof = false ∧ r.tokens = r.next.1 :: r.next.2.tokens ∧ r.next.2.finished = r.finished) := by
  fun_induction next r with
  | case1 r h =>
    rw [finished_of_nil h]
    exact .inl ⟨by simp [tokens, segments, h, Scan.segmentsFrom], rfl⟩
  | case2 r c cs h first segment tok htok =>
    refine .inr ⟨?_, ?_, finished_pass h⟩
    · obtain ⟨k, hcls, rfl⟩ := Segment.token?_eq_some_iff.1 htok
      have hlexeme := (Scan.proper_cut r.comments (Scan.boundary_nil (c :: cs))).lexeme
      rw [show (Scan.cut r.comments c cs).cls = .token k from hcls] at hlexeme
      simpa [Token.isEof] using hlexeme.kind_ne_eof
    · rw [tokens, segments_of_cons h]
      exact List.filterMap_cons_some htok
  | case3 r c cs h first segment htok ih =>
    have htokens : r.tokens = (r.pass segment first.rest).tokens := by
      rw [tokens, segments_of_cons h]
      exact List.filterMap_cons_none htok
    rw [htokens, ← finished_pass h]
    exact ih

theorem tokens_finished (r : Reader) : r.finished.tokens = [] := by
  simp [tokens, segments, finished, Scan.segmentsFrom]

theorem finished_finished (r : Reader) : r.finished.finished = r.finished := finished_of_nil rfl

theorem all_eq (r : Reader) : r.all = (r.tokens, r.finished) := by
  fun_induction all r with
  | case1 r hend =>
    rcases r.next_spec with ⟨htokens, hnext⟩ | ⟨hmore, -, -⟩
    · rw [htokens, hnext]
    · simp [hend] at hmore
  | case2 r hmore rest last heq ih =>
    rcases r.next_spec with ⟨-, hnext⟩ | ⟨-, htokens, hfinished⟩
    · simp [hnext, eof, Token.isEof] at hmore
    · rw [ih] at heq
      obtain ⟨rfl, rfl⟩ := Prod.mk.inj heq
      rw [htokens, hfinished]

/-- The next tokens are the first ones that are left, and the end where there are not so many. -/
theorem take_spec (n : Nat) (r : Reader) :
    (take n r).1 = r.tokens.take n ++ List.replicate (n - r.tokens.length) r.finished.eof ∧
      (take n r).2.tokens = r.tokens.drop n ∧ (take n r).2.finished = r.finished := by
  induction n generalizing r with
  | zero => simp [take]
  | succ n ih =>
    obtain ⟨hfirst, htokens, hfinished⟩ := ih r.next.2
    simp only [take, hfirst, htokens, hfinished]
    rcases r.next_spec with ⟨hnone, hnext⟩ | ⟨-, hmore, hend⟩
    · simp [hnone, hnext, tokens_finished, finished_finished, List.replicate_succ]
    · simp [hmore, hend]

/-- After some tokens, the others are left up to the end. -/
theorem all_take (n : Nat) (r : Reader) : (take n r).2.all = (r.tokens.drop n, r.finished) := by
  obtain ⟨-, htokens, hfinished⟩ := take_spec n r
  rw [all_eq, htokens, hfinished]

/-- At the end there is nothing but the end. -/
theorem take_finished (n : Nat) (r : Reader) :
    (take n r.finished).1 = List.replicate n r.finished.eof ∧ (take n r.finished).2.faults = r.finished.faults := by
  induction n with
  | zero => exact ⟨rfl, rfl⟩
  | succ n ih =>
    obtain ⟨hfirst, hfaults⟩ := ih
    have hnext := next_of_nil (r := r.finished) rfl
    simp only [take, hnext]
    exact ⟨congrArg _ hfirst, hfaults⟩

end Reader

/-! ## Nothing is lost and nothing is added -/

/-- The segments of a source are its lexemes: they make up the folded source without a gap, and each stands in the line and
column that the text before it leads to. Tokens and faults are the segments of these classes with their text, place and
length. A reader hands out the first tokens when it is asked for some, then all others, and after them the end as often as it
is asked. -/
theorem scan_faithful (comments : Bool) (file : Int) (source : List Char) :
    let segments := (scan comments file source).segments
    let tokens := segments.filterMap (Segment.token? file)
    let eof := (scan comments file source).eof
    segments.flatMap Segment.text = Text.foldChars source ∧
    (∀ front s back, segments = front ++ s :: back →
      let before := front.flatMap Segment.text
      Scan.Lexeme comments before s.text (back.flatMap Segment.text) s.cls ∧
        s.start.line = 1 + before.count '\n' ∧
        s.start.column = 1 + (before.reverse.takeWhile (· ≠ '\n')).length) ∧
    (∀ (s : Segment) tok, s.token? file = some tok ↔ ∃ k, s.cls = .token k ∧
      tok = ⟨k, Text.ofChars s.text, file, s.start.line, s.start.column, s.text.length⟩) ∧
    (∀ (s : Segment) tok f, s.fault? file = some (tok, f) ↔ s.cls = .fault f ∧
      tok = ⟨.eof, Text.ofChars s.text, file, s.start.line, s.start.column, s.text.length⟩) ∧
    eof.isEof ∧ (∀ tok ∈ tokens, tok.isEof = false) ∧
    ∀ n,
      let first := (Reader.ofSource comments file source).take n
      let all := first.2.all
      first.1 = tokens.take n ++ List.replicate (n - tokens.length) eof ∧ all.1 = tokens.drop n ∧
        ∀ m, (all.2.take m).1 = List.replicate m eof ∧
          (all.2.take m).2.faults = segments.filterMap (Segment.fault? file) := by
  intro segments tokens eof
  have hplaced : ∀ front s back, segments = front ++ s :: back →
      Scan.Lexeme comments (front.flatMap Segment.text) s.text (back.flatMap Segment.text) s.cls ∧
        s.start = Position.advance {} (front.flatMap Segment.text) := fun front s back hsplit =>
    Scan.segmentsFrom_spec (Scan.boundary_nil _) hsplit
  refine ⟨Scan.flatMap_segmentsFrom .., ?_, fun s tok => Segment.token?_eq_some_iff,
    fun s tok f => Segment.fault?_eq_some_iff, rfl, ?_, fun n => ?_⟩
  · intro front s back hsplit
    obtain ⟨hlexeme, hstart⟩ := hplaced front s back hsplit
    rw [hstart, Scan.advance_eq]
    exact ⟨hlexeme, rfl, rfl⟩
  · intro tok htok
    obtain ⟨s, hs, hsome⟩ := List.mem_filterMap.1 htok
    obtain ⟨k, hcls, rfl⟩ := Segment.token?_eq_some_iff.1 hsome
    obtain ⟨front, back, hsplit⟩ := List.append_of_mem hs
    have hlexeme := (hplaced front s back hsplit).1
    rw [hcls] at hlexeme
    simpa [Token.isEof] using hlexeme.kind_ne_eof
  · intro first all
    have hall : all = (tokens.drop n, (Reader.ofSource comments file source).finished) := Reader.all_take n _
    refine ⟨(Reader.take_spec n _).1, by rw [hall], fun m => ?_⟩
    rw [hall]
    exact Reader.take_finished m _

end AlgolMips
