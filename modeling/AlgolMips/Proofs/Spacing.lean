import AlgolMips.Proofs.Folding
import AlgolMips.Proofs.Scanning

/-!
# Spacing

The tokens of a source can be spaced anew. Between two of them stands a separator that is not empty: blanks and, where
comments are skipped, comments with a blank in front of them. Scanning the new text gives tokens of the same kinds and
texts, and no fault (`rescan_spaced`).

Two facts carry this. A token that has been scanned once is cut off as the same token in front of any blank, and at the
end of a text (`Scan.Lexeme.cut_eq`). A separator is passed without a trace (`Scan.reads_separator`). Places play no
part, so segments are seen without them, as the outline of a source.
-/

namespace AlgolMips

open Text (isBlank isLetter foldChars lowerChar)

/-! ## Characters that keep their case -/

namespace Text

/-- No blank has a lower case of its own. -/
theorem blankRanges_settled : (blankRanges.all fun r => (List.range' r.1 (r.2 + 1 - r.1)).all fun n =>
    decide (lowerShift caseRuns n = 0)) = true := by
  decide +kernel

theorem lowerChar_of_isBlank {c : Char} (h : isBlank c) : lowerChar c = c := by
  obtain ⟨r, hr, hlo, hhi⟩ := Scan.exists_of_holds h
  have hall := List.all_eq_true.1 (List.all_eq_true.1 blankRanges_settled r hr) c.toNat
    (List.mem_range'_1.2 ⟨hlo, by omega⟩)
  exact lowerChar_of_shift (of_decide_eq_true hall)

theorem foldChars_append (cs ds : List Char) : foldChars (cs ++ ds) = foldChars cs ++ foldChars ds := List.map_append

theorem foldChars_cons (c : Char) (cs : List Char) : foldChars (c :: cs) = lowerChar c :: foldChars cs := rfl

/-- What is found in a folded text is folded. -/
theorem foldChars_of_subset {cs source : List Char} (h : cs ⊆ foldChars source) : foldChars cs = cs := by
  refine (List.map_congr_left fun c hc => ?_).trans (List.map_id cs)
  obtain ⟨d, -, rfl⟩ := List.mem_map.1 (h hc)
  exact lowerChar_lowerChar d

end Text

namespace Scan

/-! ## Outlines -/

/-- The segments of a source without their places. -/
def outline (comments : Bool) (source : List Char) : List (SegmentClass × List Char) :=
  (segmentsFrom comments {} source).map fun s => (s.cls, s.text)

/-- The place where a source begins plays no part. -/
theorem map_segmentsFrom (comments : Bool) (p q : Position) (source : List Char) :
    (segmentsFrom comments p source).map (fun s => (s.cls, s.text)) =
      (segmentsFrom comments q source).map fun s => (s.cls, s.text) := by
  fun_induction segmentsFrom comments p source generalizing q with
  | case1 p => simp [segmentsFrom]
  | case2 p c cs ih =>
    rw [segmentsFrom, List.map_cons, List.map_cons, ih]

theorem outline_cons (comments : Bool) (c : Char) (cs : List Char) :
    outline comments (c :: cs) =
      ((cut comments c cs).cls, (cut comments c cs).text) :: outline comments (cut comments c cs).rest := by
  rw [outline, segmentsFrom, List.map_cons, map_segmentsFrom comments _ {}]
  rfl

/-- The kind and the text of a segment that is a token. -/
def reading? : SegmentClass × List Char → Option (Kind × Text)
  | (.token k, text) => some (k, Text.ofChars text)
  | _ => none

/-- A folded source is read as tokens of these kinds and texts, and nothing in it is unusable. -/
def Reads (comments : Bool) (source : List Char) (tokens : List (Kind × Text)) : Prop :=
  (outline comments source).filterMap reading? = tokens ∧ ∀ x ∈ outline comments source, ∀ f, x.1 ≠ .fault f

section

variable {comments : Bool} {c : Char} {cs rest : List Char} {tokens : List (Kind × Text)}

theorem reads_nil : Reads comments [] [] := by
  simp [Reads, outline, segmentsFrom]

theorem Reads.token {k : Kind} {text : List Char} (hcut : cut comments c cs = ⟨.token k, text, rest⟩)
    (h : Reads comments rest tokens) : Reads comments (c :: cs) ((k, Text.ofChars text) :: tokens) := by
  rw [Reads, outline_cons, hcut]
  exact ⟨by simp [reading?, h.1], List.forall_mem_cons.2 ⟨nofun, h.2⟩⟩

/-- Blanks and comments leave nothing. -/
theorem reads_skip (hcut : (cut comments c cs).cls = .blank ∨ (cut comments c cs).cls = .comment) :
    Reads comments (c :: cs) tokens ↔ Reads comments (cut comments c cs).rest tokens := by
  rw [Reads, outline_cons]
  rcases hcut with hcls | hcls <;> simp [Reads, hcls, List.filterMap_cons, reading?]

/-- Blanks in front of a source are passed, however many there are. -/
theorem reads_dropWhile : Reads comments (cs.dropWhile isBlank) tokens ↔ Reads comments cs tokens := by
  cases cs with
  | nil => exact .rfl
  | cons d ds =>
    by_cases hd : isBlank d
    · have hcut : cut comments d ds = ⟨.blank, d :: ds.takeWhile isBlank, ds.dropWhile isBlank⟩ := by
        rw [cut, if_pos hd]
      rw [List.dropWhile_cons_of_pos hd, reads_skip (.inl (by rw [hcut])), hcut]
    · rw [List.dropWhile_cons_of_neg hd]

theorem reads_blank (hc : isBlank c) (h : Reads comments rest tokens) : Reads comments (c :: rest) tokens := by
  rw [← reads_dropWhile, List.dropWhile_cons_of_pos hc, reads_dropWhile]
  exact h

/-! ## Separators are passed -/

/-- Characters of one sort in front of others. -/
theorem span_append {p : Char → Bool} (hcs : ∀ d ∈ cs, p d) (hrest : ∀ d ∈ rest.head?, p d = false) :
    (cs ++ rest).takeWhile p = cs ∧ (cs ++ rest).dropWhile p = rest := by
  rw [List.takeWhile_append_of_pos hcs, List.dropWhile_append_of_pos hcs]
  cases rest with
  | nil => simp
  | cons d ds => simp [hrest d rfl]

theorem not_isBlank_of_isWordChar (h : isWordChar c) : ¬ isBlank c := fun hblank => by
  simp [isWordChar_of_isBlank hblank] at h

/-- What begins with a letter is cut behind the word. -/
theorem cut_word (hc : isLetter c) (hcs : ∀ d ∈ cs, isWordChar d) (hrest : ∀ d ∈ rest.head?, isWordChar d = false) :
    cut comments c (cs ++ rest) = cutWord comments (c :: cs) rest := by
  rw [cut, if_neg (not_isBlank_of_isWordChar (isWordChar_of_isLetter hc)), if_pos hc, (span_append hcs hrest).1,
    (span_append hcs hrest).2]

theorem throughSemicolon_of_not_mem {body : List Char} (h : ';' ∉ body) (rest : List Char) :
    throughSemicolon (body ++ ';' :: rest) = (body ++ [';'], rest) := by
  induction body with
  | nil => simp [throughSemicolon]
  | cons d ds ih =>
    simp only [List.mem_cons, not_or] at h
    simp [throughSemicolon, Ne.symm h.1, ih h.2]

/-- A comment is passed up to its semicolon. -/
theorem reads_comment {body : List Char} (hhead : ∀ d ∈ body.head?, isBlank d) (hbody : ';' ∉ body)
    (h : Reads true rest tokens) : Reads true (commentWord ++ (body ++ ';' :: rest)) tokens := by
  have hword : ∀ d ∈ commentWord.tail, isWordChar d := List.all_eq_true.1 (by decide +kernel)
  have hnext : ∀ d ∈ (body ++ ';' :: rest).head?, isWordChar d = false := by
    cases body with
    | nil =>
      rintro d ⟨⟩
      decide +kernel
    | cons d ds =>
      rintro d ⟨⟩
      exact isWordChar_of_isBlank (hhead d rfl)
  have hcut : cut true 'c' (commentWord.tail ++ (body ++ ';' :: rest)) =
      ⟨.comment, commentWord ++ (body ++ [';']), rest⟩ := by
    rw [cut_word (by decide +kernel) hword hnext, cutWord, throughSemicolon_of_not_mem hbody]
    rfl
  have hsplit : commentWord ++ (body ++ ';' :: rest) = 'c' :: (commentWord.tail ++ (body ++ ';' :: rest)) := rfl
  rw [hsplit, reads_skip (.inr (by rw [hcut])), hcut]
  exact h

end

/-- What may stand between two tokens: blanks and, where comments are skipped, comments with a blank in front of them and
a blank behind their word. -/
inductive Separator (comments : Bool) : List Char → Prop where
  | nil : Separator comments []
  | blank {c : Char} {cs : List Char} : isBlank c → Separator comments cs → Separator comments (c :: cs)
  | comment {c d : Char} {word body cs : List Char} :
      comments → isBlank c → foldChars word = commentWord → isBlank d → ';' ∉ body → Separator comments cs →
      Separator comments (c :: (word ++ d :: (body ++ ';' :: cs)))

section

variable {comments : Bool} {rest sep : List Char} {tokens : List (Kind × Text)}

theorem Separator.head (h : Separator comments sep) : ∀ c ∈ sep.head?, isBlank c := by
  cases h with
  | nil => nofun
  | blank hc | comment _ hc =>
    rintro _ ⟨⟩
    exact hc

/-- A separator leaves nothing, in whatever case it is written. -/
theorem reads_separator (hsep : Separator comments sep) (h : Reads comments rest tokens) :
    Reads comments (foldChars sep ++ rest) tokens := by
  induction hsep with
  | nil => exact h
  | blank hc _ ih =>
    rw [Text.foldChars_cons, Text.lowerChar_of_isBlank hc]
    exact reads_blank hc ih
  | @comment c d word body cs hcomments hc hword hd hbody _ ih =>
    subst hcomments
    have hfolded : ';' ∉ d :: foldChars body := by
      intro hmem
      rcases List.mem_cons.1 hmem with rfl | hmem
      · exact absurd hd (by decide +kernel)
      · obtain ⟨e, he, heq⟩ := List.mem_map.1 hmem
        exact hbody (Text.eq_of_lowerChar_eq (by decide) heq ▸ he)
    have hsemicolon : lowerChar ';' = ';' := by decide +kernel
    have hread := reads_comment (by rintro _ ⟨⟩; exact hd) hfolded ih
    simp only [Text.foldChars_cons, Text.foldChars_append, hword, hsemicolon, Text.lowerChar_of_isBlank hc,
      Text.lowerChar_of_isBlank hd, List.cons_append, List.append_assoc] at hread ⊢
    exact reads_blank hc hread

end

/-! ## Tokens are cut off again -/

section

variable {comments : Bool} {before text after rest : List Char} {k : Kind}

theorem throughQuote_of_not_mem {body : List Char} (hquote : '"' ∉ body) (hline : '\n' ∉ body) (rest : List Char) :
    throughQuote (body ++ '"' :: rest) = (true, body ++ ['"'], rest) := by
  induction body with
  | nil => simp [throughQuote]
  | cons d ds ih =>
    simp only [List.mem_cons, not_or] at hquote hline
    simp [throughQuote, Ne.symm hquote.1, Ne.symm hline.1, ih hquote.2 hline.2]

/-- The signs that may be followed by more. -/
def openSigns : List Char := ['!', ':', '"']

/-- A character is neither blank nor part of a word. -/
def IsSign (c : Char) : Prop := isBlank c = false ∧ isLetter c = false ∧ isDigit c = false

theorem isSign_of_mem {c : Char} (h : c ∈ openSigns) : IsSign c := by
  have hall : openSigns.all (fun c => !isBlank c && !isLetter c && !isDigit c) := by decide +kernel
  simpa [IsSign, and_assoc] using List.all_eq_true.1 hall c h

theorem isSign_of_single {c : Char} (h : singleKind? c = some k) : IsSign c ∧ c ∉ openSigns := by
  have hall : ∀ entry ∈ [('+', Kind.addOp), ('-', .addOp), ('*', .mulOp), ('/', .mulOp), ('=', .relOp), ('<', .relOp),
      ('>', .relOp), ('(', .lparen), (')', .rparen), (';', .semi), ('.', .dot)],
      (isBlank entry.1 = false ∧ isLetter entry.1 = false ∧ isDigit entry.1 = false) ∧ entry.1 ∉ openSigns := by
    decide +kernel
  exact hall _ (mem_of_lookup h)

/-- A token that was scanned once is cut off as the same token in front of a blank and at the end. -/
theorem Lexeme.cut_eq (h : Lexeme comments before text after (.token k)) (hrest : ∀ d ∈ rest.head?, isBlank d) :
    ∃ c cs, text = c :: cs ∧ cut comments c (cs ++ rest) = ⟨.token k, text, rest⟩ := by
  have hnext : ∀ d ∈ rest.head?, isWordChar d = false := fun d hd => isWordChar_of_isBlank (hrest d hd)
  generalize hcls : SegmentClass.token k = cls at h
  cases h with
  | @word c cs _ hc hcs _ _ hcomment =>
    refine ⟨c, cs, rfl, ?_⟩
    rw [cut_word hc hcs hnext, cutWord, if_neg (by simpa using hcomment)]
  | number hne hdigits _ _ =>
    obtain ⟨c, cs, rfl⟩ := List.exists_cons_of_ne_nil hne
    obtain ⟨hc, hcs⟩ := List.forall_mem_cons.1 hdigits
    have hstop : ∀ d ∈ rest.head?, isDigit d = false := fun d hd => by
      have hword := hnext d hd
      simp only [isWordChar, Bool.or_eq_false_iff] at hword
      exact hword.2
    refine ⟨c, cs, rfl, ?_⟩
    rw [cut, if_neg (not_isBlank_of_isWordChar (isWordChar_of_isDigit hc)), if_neg (by simp [isLetter_of_isDigit hc]),
      if_pos hc, (span_append hcs hstop).1, (span_append hcs hstop).2]
  | @string body _ hquote hline =>
    obtain ⟨hblank, hletter, hdigit⟩ := isSign_of_mem (c := '"') (by decide)
    refine ⟨'"', body ++ ['"'], rfl, ?_⟩
    simp [cut, hblank, hletter, hdigit, cutQuote, throughQuote_of_not_mem hquote hline]
  | unequal =>
    obtain ⟨hblank, hletter, hdigit⟩ := isSign_of_mem (c := '!') (by decide)
    exact ⟨'!', ['='], rfl, by simp [cut, hblank, hletter, hdigit, cutSign]⟩
  | not _ =>
    obtain ⟨hblank, hletter, hdigit⟩ := isSign_of_mem (c := '!') (by decide)
    refine ⟨'!', [], rfl, ?_⟩
    have hequals : rest.head? ≠ some '=' := fun heq => absurd (hrest '=' heq) (by decide +kernel)
    rw [List.nil_append, cut, if_neg (by simp [hblank]), if_neg (by simp [hletter]), if_neg (by simp [hdigit]), if_pos rfl]
    unfold cutSign
    split
    · exact absurd rfl hequals
    · rfl
  | assign =>
    obtain ⟨hblank, hletter, hdigit⟩ := isSign_of_mem (c := ':') (by decide)
    exact ⟨':', ['='], rfl, by simp [cut, hblank, hletter, hdigit, cutSign]⟩
  | @single c _ _ hk =>
    obtain ⟨⟨hblank, hletter, hdigit⟩, hopen⟩ := isSign_of_single hk
    simp only [openSigns, List.mem_cons, List.not_mem_nil, or_false, not_or] at hopen
    exact ⟨c, [], rfl, by simp [cut, hblank, hletter, hdigit, hopen, hk]⟩
  | blank | comment | loneColon | unterminated | unexpected => cases hcls

end

end Scan

/-! ## Spaced tokens -/

/-- What a token is, wherever it stands. -/
def Token.reading (t : Token) : Kind × Text := (t.kind, t.value)

/-- Texts with characters behind each of them. -/
def spaced (parts : List (Text × List Char)) : List Char := parts.flatMap fun p => p.1.chars ++ p.2

theorem Segment.map_reading (file : Int) (s : Segment) :
    (s.token? file).map Token.reading = Scan.reading? (s.cls, s.text) := by
  cases hcls : s.cls <;> simp [Segment.token?, hcls, Scan.reading?, Token.reading]

/-- What a source is read as is what a reader hands out. -/
theorem Reader.all_of_reads {r : Reader} {tokens : List (Kind × Text)} (h : Scan.Reads r.comments r.rest tokens)
    (hfaults : r.faults = []) : r.all.1.map Token.reading = tokens ∧ r.all.2.faults = [] := by
  have houtline : r.segments.map (fun s => (s.cls, s.text)) = Scan.outline r.comments r.rest :=
    Scan.map_segmentsFrom _ _ _ _
  rw [Reader.all_eq]
  constructor
  · rw [← h.1, ← houtline, Reader.tokens, List.map_filterMap, List.filterMap_map]
    exact congrArg (List.filterMap · r.segments) (funext fun s => s.map_reading r.file)
  · simp only [Reader.finished, hfaults, List.nil_append, List.filterMap_eq_nil_iff]
    intro s hs
    have hnot := h.2 (s.cls, s.text) (houtline ▸ List.mem_map_of_mem hs)
    cases hcls : s.cls with
    | fault f => exact absurd hcls (hnot f)
    | _ => simp [Segment.fault?, hcls]

/-- A token is written in folded characters, and cut off as itself in front of a blank and at the end. -/
structure Token.Steady (comments : Bool) (t : Token) : Prop where
  written : Text.ofChars t.value.chars = t.value
  folded : foldChars t.value.chars = t.value.chars
  cut : ∀ rest : List Char, (∀ d ∈ rest.head?, isBlank d) → ∃ c cs, t.value.chars = c :: cs ∧
    Scan.cut comments c (cs ++ rest) = ⟨.token t.kind, t.value.chars, rest⟩

/-- Every token that is scanned is steady. -/
theorem Reader.steady {comments : Bool} {file : Int} {source : List Char} {t : Token}
    (h : t ∈ (Reader.ofSource comments file source).all.1) : t.Steady comments := by
  rw [Reader.all_eq] at h
  obtain ⟨s, hs, hsome⟩ := List.mem_filterMap.1 h
  obtain ⟨k, hcls, rfl⟩ := Segment.token?_eq_some_iff.1 hsome
  obtain ⟨front, back, hsplit⟩ := List.append_of_mem hs
  have hlexeme := (Scan.segmentsFrom_spec (Scan.boundary_nil _) hsplit).1
  rw [hcls] at hlexeme
  have hsource : s.text ⊆ foldChars source := by
    have hall := Scan.flatMap_segmentsFrom comments {} (foldChars source)
    rw [← hall]
    exact fun c hc => List.mem_flatMap.2 ⟨s, hs, hc⟩
  refine ⟨by rw [Text.chars_ofChars], ?_, fun rest hrest => ?_⟩
  · rw [Text.chars_ofChars]
    exact Text.foldChars_of_subset hsource
  · rw [Text.chars_ofChars]
    exact hlexeme.cut_eq hrest

/-- Steady tokens with separators behind them are read as themselves. The induction is on the tokens; the separator behind
the first of them is empty only where no other follows. -/
theorem reads_spaced {comments : Bool} {parts : List (Text × List Char)} {tokens : List Token}
    (hvalues : parts.map Prod.fst = tokens.map Token.value) (hsteady : ∀ t ∈ tokens, t.Steady comments)
    (hparts : ∀ p ∈ parts, Scan.Separator comments p.2) (hgaps : ∀ p ∈ parts.dropLast, p.2 ≠ []) :
    Scan.Reads comments (foldChars (spaced parts)) (tokens.map Token.reading) := by
  induction parts generalizing tokens with
  | nil =>
    obtain rfl := List.map_eq_nil_iff.1 hvalues.symm
    exact Scan.reads_nil
  | cons p parts ih =>
    obtain ⟨t, tokens, rfl, hvalue, hrest⟩ := List.map_eq_cons_iff.1 hvalues.symm
    obtain ⟨hsep, hseps⟩ := List.forall_mem_cons.1 hparts
    obtain ⟨ht, hts⟩ := List.forall_mem_cons.1 hsteady
    have hlater : Scan.Reads comments (foldChars p.2 ++ foldChars (spaced parts)) (tokens.map Token.reading) := by
      refine Scan.reads_separator hsep (ih hrest.symm hts hseps fun q hq => hgaps q ?_)
      rw [List.dropLast_cons_of_ne_nil (List.ne_nil_of_mem ((List.dropLast_subset _) hq))]
      exact List.mem_cons_of_mem p hq
    have hnext : ∀ d ∈ (foldChars p.2 ++ foldChars (spaced parts)).head?, isBlank d := by
      cases hgap : p.2 with
      | nil =>
        cases parts with
        | nil => nofun
        | cons q parts => exact absurd hgap (hgaps p (by simp))
      | cons c cs =>
        rintro _ ⟨⟩
        have hc := hsep.head c (by rw [hgap]; rfl)
        rwa [Text.lowerChar_of_isBlank hc]
    obtain ⟨c, cs, hchars, hcut⟩ := ht.cut _ hnext
    have htext : foldChars (spaced (p :: parts)) = c :: (cs ++ (foldChars p.2 ++ foldChars (spaced parts))) := by
      rw [spaced, List.flatMap_cons, ← hvalue, Text.foldChars_append, Text.foldChars_append, ht.folded, hchars]
      simp [spaced]
    have hread := hlater.token hcut
    rwa [ht.written, ← htext] at hread

/-- The tokens of a source, written with separators around them that are not empty between two tokens, are scanned as tokens
of the same kinds and texts, without any fault. -/
theorem rescan_spaced (comments : Bool) (file file' : Int) (source first : List Char) (parts : List (Text × List Char))
    (hvalues : parts.map Prod.fst = (Reader.ofSource comments file source).all.1.map Token.value)
    (hfirst : Scan.Separator comments first) (hparts : ∀ p ∈ parts, Scan.Separator comments p.2)
    (hgaps : ∀ p ∈ parts.dropLast, p.2 ≠ []) :
    let again := (Reader.ofSource comments file' (first ++ spaced parts)).all
    again.1.map Token.reading = (Reader.ofSource comments file source).all.1.map Token.reading ∧ again.2.faults = [] := by
  refine Reader.all_of_reads ?_ rfl
  rw [Reader.ofSource, Text.foldChars_append]
  exact Scan.reads_separator hfirst (reads_spaced hvalues (fun t ht => Reader.steady ht) hparts hgaps)

/-- A source in which words, numbers and signs stand close together, with a string, a comment and a stray colon. -/
def crowdedSource : List Char := "If!y1=2\"A b\":comment C;DIV".toList

/-- The same tokens with separators around them. -/
def crowdedParts : List (Text × List Char) :=
  [("if", [' ']), ("!", ['\t']), ("y1", " Comment ! = \";".toList), ("=", [' ']), ("2", ['\n']), ("\"a b\"", [' ']),
    ("div", [])]

theorem crowdedSource_spaced :
    crowdedParts.map Prod.fst = (Reader.ofSource true 0 crowdedSource).all.1.map Token.value ∧
      (∀ p ∈ crowdedParts, Scan.Separator true p.2) ∧ (∀ p ∈ crowdedParts.dropLast, p.2 ≠ []) ∧
      (Reader.ofSource true 0 (['\n'] ++ spaced crowdedParts)).all.1.map Token.reading =
        (Reader.ofSource true 0 crowdedSource).all.1.map Token.reading ∧
      (Reader.ofSource true 0 (['\n'] ++ spaced crowdedParts)).all.2.faults = [] := by
  have hvalues : crowdedParts.map Prod.fst = (Reader.ofSource true 0 crowdedSource).all.1.map Token.value := by
    decide +kernel
  have hblank : ∀ c ∈ [' ', '\t', '\n'], Scan.Separator true [c] := by
    have hall : ∀ c ∈ [' ', '\t', '\n'], isBlank c := List.all_eq_true.1 (by decide +kernel)
    exact fun c hc => .blank (hall c hc) .nil
  have hcomment : Scan.Separator true " Comment ! = \";".toList :=
    @Scan.Separator.comment true ' ' ' ' "Comment".toList "! = \"".toList [] rfl (by decide +kernel)
      (by decide +kernel) (by decide +kernel) (by decide +kernel) .nil
  have hparts : ∀ p ∈ crowdedParts, Scan.Separator true p.2 := by
    simp only [crowdedParts, List.forall_mem_cons]
    exact ⟨hblank _ (by decide), hblank _ (by decide), hcomment, hblank _ (by decide), hblank _ (by decide),
      hblank _ (by decide), .nil, nofun⟩
  have hgaps : ∀ p ∈ crowdedParts.dropLast, p.2 ≠ [] := by decide +kernel
  exact ⟨hvalues, hparts, hgaps, rescan_spaced true 0 0 _ _ _ hvalues (hblank _ (by decide)) hparts hgaps⟩

end AlgolMips
