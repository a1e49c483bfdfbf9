import AlgolMips.Token
import AlgolMips.Text.Letter
import AlgolMips.Text.Words

/-!
# Scanning

A source is cut into segments: stretches of blanks, comments, tokens and text that the language has no use for. The
segments follow each other without a gap, so their texts make up the source (`Scan.flatMap_segmentsFrom`), and each segment is
placed where the texts before it end. Scanning works on folded text, so case never matters.
-/

namespace AlgolMips

/-- A place in a source, both parts counted from one. -/
structure Position where
  line : Nat := 1
  column : Nat := 1
deriving DecidableEq, Inhabited

namespace Position

/-- The place after a character. -/
def after (p : Position) (c : Char) : Position :=
  if c = '\n' then ⟨p.line + 1, 1⟩ else ⟨p.line, p.column + 1⟩

/-- The place after some text. -/
def advance (p : Position) (cs : List Char) : Position := cs.foldl after p

end Position

/-- Why a stretch of source is no token. -/
inductive ScanFault where
  | loneColon
  | unterminated
  | unexpected (c : Char)
deriving DecidableEq

def ScanFault.message : ScanFault → Text
  | loneColon => "expected '=' after ':'"
  | unterminated => "unterminated string"
  | unexpected c => "unexpected character '" ++ Text.ofChars [c] ++ "'"

/-- What a segment of source is. -/
inductive SegmentClass where
  | blank
  | comment
  | token (kind : Kind)
  | fault (f : ScanFault)
deriving DecidableEq

/-- A stretch of source of one class, and where it begins. -/
structure Segment where
  start : Position
  text : List Char
  cls : SegmentClass
deriving DecidableEq

namespace Scan

/-- Literals are written with the ten ASCII digits only. -/
def isDigit (c : Char) : Bool := '0' ≤ c && c ≤ '9'

def isWordChar (c : Char) : Bool := Text.isLetter c || isDigit c

/-- The text up to and with the next semicolon, and the rest. A comment without one takes everything. -/
def throughSemicolon : List Char → List Char × List Char
  | [] => ([], [])
  | c :: cs =>
    if c = ';' then ([c], cs)
    else
      let (body, rest) := throughSemicolon cs
      (c :: body, rest)

/-- The text up to and with the next quote on the same line, and the rest; without a quote, the text up to the line's
end. The flag says whether the quote was there. -/
def throughQuote : List Char → Bool × List Char × List Char
  | [] => (false, [], [])
  | c :: cs =>
    if c = '\n' then (false, [], c :: cs)
    else if c = '"' then (true, [c], cs)
    else
      let (closed, body, rest) := throughQuote cs
      (closed, c :: body, rest)

/-- The kind of a token that is one character long and begins no longer one. -/
def singleKind? (c : Char) : Option Kind :=
  [('+', Kind.addOp), ('-', .addOp), ('*', .mulOp), ('/', .mulOp), ('=', .relOp), ('<', .relOp), ('>', .relOp),
    ('(', .lparen), (')', .rparen), (';', .semi), ('.', .dot)].lookup c

/-- The word that starts a comment. -/
def commentWord : List Char := "comment".toList

/-- A source cut in two: the class and text of its first segment, and the rest. -/
structure Cut where
  cls : SegmentClass
  text : List Char
  rest : List Char

/-- The segment of a source that begins with a letter: a comment, a keyword or an identifier. -/
def cutWord (comments : Bool) (word rest : List Char) : Cut :=
  if comments && word = commentWord then
    ⟨.comment, word ++ (throughSemicolon rest).1, (throughSemicolon rest).2⟩
  else ⟨.token ((Kind.ofKeyword? (Text.ofChars word)).getD .ident), word, rest⟩

/-- The segment of a source that begins with a sign which may take an equals sign after it. -/
def cutSign (c : Char) (long short : SegmentClass) : List Char → Cut
  | '=' :: rest => ⟨long, [c, '='], rest⟩
  | rest => ⟨short, [c], rest⟩

/-- The segment of a source that begins with a quote: a literal, or a fault where the line ends first. -/
def cutQuote (cs : List Char) : Cut :=
  match throughQuote cs with
  | (true, body, rest) => ⟨.token .literal, '"' :: body, rest⟩
  | (false, body, rest) => ⟨.fault .unterminated, '"' :: body, rest⟩

/-- The first segment of a source that begins with `c`. -/
def cut (comments : Bool) (c : Char) (cs : List Char) : Cut :=
  if Text.isBlank c then ⟨.blank, c :: cs.takeWhile Text.isBlank, cs.dropWhile Text.isBlank⟩
  else if Text.isLetter c then cutWord comments (c :: cs.takeWhile isWordChar) (cs.dropWhile isWordChar)
  else if isDigit c then ⟨.token .literal, c :: cs.takeWhile isDigit, cs.dropWhile isDigit⟩
  else if c = '!' then cutSign c (.token .relOp) (.token .not) cs
  else if c = ':' then cutSign c (.token .assign) (.fault .loneColon) cs
  else if c = '"' then cutQuote cs
  else match singleKind? c with
    | some k => ⟨.token k, [c], cs⟩
    | none => ⟨.fault (.unexpected c), [c], cs⟩

theorem throughSemicolon_append (cs : List Char) :
    (throughSemicolon cs).1 ++ (throughSemicolon cs).2 = cs := by
  induction cs with
  | nil => rfl
  | cons c cs ih => by_cases h : c = ';' <;> simp [throughSemicolon, h, ih]

theorem throughQuote_append (cs : List Char) :
    (throughQuote cs).2.1 ++ (throughQuote cs).2.2 = cs := by
  induction cs with
  | nil => rfl
  | cons c cs ih =>
    by_cases h : c = '\n'
    · simp [throughQuote, h]
    · by_cases h' : c = '"' <;> simp [throughQuote, h, h', ih]

theorem cutWord_append (comments : Bool) (word rest : List Char) :
    (cutWord comments word rest).text ++ (cutWord comments word rest).rest = word ++ rest := by
  unfold cutWord
  split <;> simp [throughSemicolon_append]

theorem cutSign_append (c : Char) (long short : SegmentClass) (cs : List Char) :
    (cutSign c long short cs).text ++ (cutSign c long short cs).rest = c :: cs := by
  unfold cutSign
  split <;> rfl

theorem cutQuote_append (cs : List Char) : (cutQuote cs).text ++ (cutQuote cs).rest = '"' :: cs := by
  have h := throughQuote_append cs
  unfold cutQuote
  split <;> simp_all

/-- A segment and the rest after it make up the source. -/
theorem cut_append (comments : Bool) (c : Char) (cs : List Char) :
    (cut comments c cs).text ++ (cut comments c cs).rest = c :: cs := by
  unfold cut
  split
  · simp
  split
  · simp [cutWord_append]
  split
  · simp
  split
  · exact cutSign_append ..
  split
  · exact cutSign_append ..
  split
  · rename_i h
    rw [cutQuote_append, h]
  split <;> rfl

/-- A segment is never empty. -/
theorem cut_text_ne_nil (comments : Bool) (c : Char) (cs : List Char) : (cut comments c cs).text ≠ [] := by
  unfold cut
  split
  · simp
  split
  · unfold cutWord
    split <;> simp
  split
  · simp
  split
  · unfold cutSign
    split <;> simp
  split
  · unfold cutSign
    split <;> simp
  split
  · unfold cutQuote
    split <;> simp
  split <;> simp

theorem length_cut_rest (comments : Bool) (c : Char) (cs : List Char) :
    (cut comments c cs).rest.length < (c :: cs).length := by
  have happ := congrArg List.length (cut_append comments c cs)
  have hpos := List.length_pos_iff.2 (cut_text_ne_nil comments c cs)
  simp only [List.length_append] at happ
  omega

/-- The segments of a folded source that begins at `p`. -/
def segmentsFrom (comments : Bool) (p : Position) : List Char → List Segment
  | [] => []
  | c :: cs =>
    ⟨p, (cut comments c cs).text, (cut comments c cs).cls⟩ ::
      segmentsFrom comments (p.advance (cut comments c cs).text) (cut comments c cs).rest
termination_by source => source.length
decreasing_by exact length_cut_rest comments c cs

/-- The texts of the segments make up the source. -/
theorem flatMap_segmentsFrom (comments : Bool) (p : Position) (source : List Char) :
    (segmentsFrom comments p source).flatMap Segment.text = source := by
  fun_induction segmentsFrom comments p source with
  | case1 => rfl
  | case2 p c cs ih => simp [ih, cut_append]

end Scan

/-- A source read into segments. -/
structure Scanned where
  file : Int
  segments : List Segment
  stop : Position

namespace Segment

/-- The token that a segment is, if it is one. -/
def token? (file : Int) (s : Segment) : Option Token :=
  match s.cls with
  | .token k => some ⟨k, Text.ofChars s.text, file, s.start.line, s.start.column, s.text.length⟩
  | _ => none

/-- The unusable text that a segment is, located by a token without a kind, and what is wrong with it. -/
def fault? (file : Int) (s : Segment) : Option (Token × ScanFault) :=
  match s.cls with
  | .fault f => some (⟨.eof, Text.ofChars s.text, file, s.start.line, s.start.column, s.text.length⟩, f)
  | _ => none

end Segment

namespace Scanned

def tokens (s : Scanned) : List Token := s.segments.filterMap (Segment.token? s.file)

def faults (s : Scanned) : List (Token × ScanFault) := s.segments.filterMap (Segment.fault? s.file)

/-- The token that stands for the end of the source, however often it is asked for. -/
def eof (s : Scanned) : Token := { file := s.file, line := s.stop.line, column := s.stop.column }

/-- The segments before the token with index `n`, or all of them if there are not so many tokens. -/
def segmentsBefore : Nat → List Segment → List Segment
  | _, [] => []
  | n, s :: rest =>
    match s.cls, n with
    | .token _, 0 => []
    | .token _, n + 1 => s :: segmentsBefore n rest
    | _, n => s :: segmentsBefore n rest

/-- The faults met until the token with index `n` is read. -/
def faultsBefore (s : Scanned) (n : Nat) : List (Token × ScanFault) :=
  (segmentsBefore n s.segments).filterMap (Segment.fault? s.file)

end Scanned

/-- The segments of a source, read in lower case from its first line and column on. -/
def scan (comments : Bool) (file : Int) (source : List Char) : Scanned :=
  let folded := Text.foldChars source
  ⟨file, Scan.segmentsFrom comments {} folded, Position.advance {} folded⟩

/-- A located scanning fault in one line. -/
def ScanFault.describe (f : ScanFault) (tok : Token) : Text :=
  Text.ofInt tok.line ++ ":" ++ Text.ofInt tok.column ++ ": " ++ f.message

/-- The lines of a source in lower case. A line end at the very end begins no further line, and an empty source has no
lines. -/
def foldedLines (source : List Char) : List Text :=
  let t := Text.trimEnding "\n" (Text.ofChars (Text.foldChars source))
  if t.isEmpty then [] else t.lines

end AlgolMips
