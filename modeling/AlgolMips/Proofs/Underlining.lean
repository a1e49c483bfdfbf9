import AlgolMips.Proofs.Spacing
import AlgolMips.Proofs.Texts
import AlgolMips.Report
import Mathlib.Data.List.Basic

/-!
# Marks stand under their tokens

The line and column of a token come from counting characters of the folded source, the line that is shown from splitting
the source as it was written, without carriage returns at the end, and the lines of a listing from splitting the folded
source without a last line end. All three agree about every token, because folding goes character by character and touches no
line end, and because no token holds a line end or ends with a carriage return (`marks_underline_token`).
-/

namespace AlgolMips

open Text (ofChars foldChars lowerChar isBlank)

/-! ## Lines of characters -/

/-- The characters behind the last line end. -/
def lastLine (cs : List Char) : List Char := (cs.reverse.takeWhile (· ≠ '\n')).reverse

/-- The characters up to the first line end. -/
def firstLine (cs : List Char) : List Char := cs.takeWhile (· ≠ '\n')

theorem not_mem_lastLine (cs : List Char) : '\n' ∉ lastLine cs := by
  intro h
  simpa using List.mem_takeWhile_imp (List.mem_reverse.1 h)

theorem not_mem_firstLine (cs : List Char) : '\n' ∉ firstLine cs := by
  intro h
  simpa using List.mem_takeWhile_imp h

theorem firstLine_cases (cs : List Char) : cs = firstLine cs ∨ ∃ rest, cs = firstLine cs ++ '\n' :: rest := by
  have hsplit := List.takeWhile_append_dropWhile (p := (· ≠ '\n')) (l := cs)
  cases hdrop : cs.dropWhile (· ≠ '\n') with
  | nil =>
    rw [hdrop, List.append_nil] at hsplit
    exact .inl hsplit.symm
  | cons c rest =>
    have hc : c = '\n' := by
      have hhead := List.head?_dropWhile_not (· ≠ '\n') cs
      rw [hdrop] at hhead
      simpa using hhead
    rw [hdrop, hc] at hsplit
    exact .inr ⟨rest, hsplit.symm⟩

theorem lastLine_cases (cs : List Char) : cs = lastLine cs ∨ ∃ front, cs = front ++ '\n' :: lastLine cs := by
  rcases firstLine_cases cs.reverse with hall | ⟨rest, hrest⟩
  · exact .inl (List.reverse_eq_iff.1 hall)
  · refine .inr ⟨rest.reverse, ?_⟩
    have hback := congrArg List.reverse hrest
    simpa [lastLine, firstLine] using hback

namespace Text

theorem ofChars_append (cs ds : List Char) : ofChars (cs ++ ds) = ofChars cs ++ ofChars ds :=
  congrArg mk List.flatMap_append

theorem feed_not_mem {cs : List Char} (h : '\n' ∉ cs) : 0x0A ∉ (ofChars cs).bytes := fun hmem =>
  h (mem_of_mem_ofChars (c := '\n') (by decide) hmem)

theorem ofChars_append_feed (cs ds : List Char) : ofChars (cs ++ '\n' :: ds) = ofChars cs ++ ⟨[0x0A]⟩ ++ ofChars ds := by
  rw [ofChars_append, append_assoc]
  rfl

theorem lines_append_feed (cs ds : List Char) :
    (ofChars (cs ++ '\n' :: ds)).lines = (ofChars cs).lines ++ (ofChars ds).lines := by
  rw [ofChars_append_feed]
  exact split_append_sep _ _

theorem lines_of_not_mem {cs : List Char} (h : '\n' ∉ cs) : (ofChars cs).lines = [ofChars cs] :=
  split_of_not_mem (feed_not_mem h)

/-- There is one line more than line ends. -/
theorem length_lines_ofChars (cs : List Char) : (ofChars cs).lines.length = cs.count '\n' + 1 := by
  have hcount : (ofChars cs).bytes.count 0x0A = cs.count '\n' := by
    induction cs with
    | nil => rfl
    | cons c rest ih =>
      have hbytes : (ofChars (c :: rest)).bytes = (ofChars [c]).bytes ++ (ofChars rest).bytes :=
        congrArg bytes (ofChars_append [c] rest)
      rw [hbytes, List.count_append, ih]
      by_cases hc : c = '\n'
      · rw [hc, List.count_cons_self, Nat.add_comm]
        rfl
      · have hother : '\n' ∉ [c] := by simpa using Ne.symm hc
        rw [List.count_eq_zero.2 (feed_not_mem hother), List.count_cons_of_ne hc, Nat.zero_add]
  rw [lines, length_split, hcount]

/-- The first line of a text that has no line end in its beginning. -/
theorem getElem?_lines_zero {cs : List Char} (h : '\n' ∉ cs) (after : List Char) :
    (ofChars (cs ++ after)).lines[0]? = some (ofChars (cs ++ firstLine after)) := by
  have hline : '\n' ∉ cs ++ firstLine after := by
    rw [List.mem_append, not_or]
    exact ⟨h, not_mem_firstLine after⟩
  rcases firstLine_cases after with hall | ⟨rest, hrest⟩
  · rw [← hall] at hline ⊢
    rw [lines_of_not_mem hline]
    rfl
  · have hcut : cs ++ after = (cs ++ firstLine after) ++ '\n' :: rest := by
      rw [List.append_assoc, ← hrest]
    rw [hcut, lines_append_feed, lines_of_not_mem hline]
    rfl

/-- The line around a place: what is before the place on its line, and what is behind it. -/
theorem getElem?_lines {word : List Char} (h : '\n' ∉ word) (before after : List Char) :
    (ofChars (before ++ word ++ after)).lines[before.count '\n']? =
      some (ofChars (lastLine before ++ word ++ firstLine after)) := by
  have hline : '\n' ∉ lastLine before ++ word := by
    rw [List.mem_append, not_or]
    exact ⟨not_mem_lastLine before, h⟩
  have hfirst := getElem?_lines_zero hline after
  rcases lastLine_cases before with hall | ⟨front, hfront⟩
  · have hnone : before.count '\n' = 0 := List.count_eq_zero.2 (hall ▸ not_mem_lastLine before)
    rw [← hall] at hfirst
    rw [hnone, ← hall, hfirst]
  · have hnone : (lastLine before).count '\n' = 0 := List.count_eq_zero.2 (not_mem_lastLine before)
    generalize lastLine before = line at hfirst hfront hnone ⊢
    have hcut : before ++ word ++ after = front ++ '\n' :: (line ++ word ++ after) := by simp [hfront]
    have hindex : before.count '\n' = (ofChars front).lines.length := by
      rw [hfront, List.count_append, List.count_cons_self, hnone, length_lines_ofChars]
    rw [hcut, lines_append_feed, hindex, List.getElem?_append_right (Nat.le_refl _), Nat.sub_self, hfirst]

end Text

/-! ## Carriage returns -/

/-- A text ends with some carriage returns, and with another character before them. -/
theorem exists_returns (line : List Char) :
    ∃ body n, line = body ++ List.replicate n '\r' ∧ body.getLast? ≠ some '\r' := by
  have hsplit := List.takeWhile_append_dropWhile (p := (· == '\r')) (l := line.reverse)
  refine ⟨(line.reverse.dropWhile (· == '\r')).reverse, (line.reverse.takeWhile (· == '\r')).length, ?_, fun hlast => ?_⟩
  · have hreturns : line.reverse.takeWhile (· == '\r') = List.replicate (line.reverse.takeWhile (· == '\r')).length '\r' :=
      List.eq_replicate_of_mem fun c hc => by simpa using List.mem_takeWhile_imp hc
    rw [hreturns] at hsplit
    simpa using (congrArg List.reverse hsplit).symm
  · rw [List.getLast?_reverse] at hlast
    have hnot := List.head?_dropWhile_not (· == '\r') line.reverse
    rw [hlast] at hnot
    cases hnot

theorem getLast?_bytes_ne {body : List Char} (h : body.getLast? ≠ some '\r') : (ofChars body).bytes.getLast? ≠ some 13 := by
  rcases List.eq_nil_or_concat' body with rfl | ⟨front, c, rfl⟩
  · decide
  · rw [List.getLast?_concat] at h
    intro hlast
    rw [Text.ofChars_append, Text.bytes_append, List.getLast?_append] at hlast
    cases hc : (ofChars [c]).bytes.getLast? with
    | none => simp [ofChars] at hc
    | some b =>
      rw [hc] at hlast
      obtain rfl : b = 13 := Option.some.inj hlast
      have hmem := Text.mem_of_mem_ofChars (c := '\r') (by decide) (List.mem_of_getLast? hc)
      exact h (congrArg some (List.mem_singleton.1 hmem).symm)

/-- Carriage returns at the end of a line are dropped, and nothing else. -/
theorem dropWhile_returns {body : List Char} (h : body.getLast? ≠ some '\r') (n : Nat) :
    (⟨((ofChars (body ++ List.replicate n '\r')).bytes.reverse.dropWhile (· == 13)).reverse⟩ : Text) = ofChars body := by
  have hreturns : (ofChars (List.replicate n '\r')).bytes = List.replicate n 13 := by
    rw [ofChars, List.flatMap_replicate]
    exact List.flatten_replicate_singleton
  have hkept : (ofChars body).bytes.reverse.dropWhile (· == 13) = (ofChars body).bytes.reverse := by
    have hlast := getLast?_bytes_ne h
    rw [← List.head?_reverse] at hlast
    cases hbytes : (ofChars body).bytes.reverse with
    | nil => rfl
    | cons b rest =>
      rw [hbytes] at hlast
      exact List.dropWhile_cons_of_neg fun hb => hlast (congrArg some (eq_of_beq hb))
  rw [Text.ofChars_append, Text.bytes_append, hreturns, List.reverse_append, List.reverse_replicate,
    List.dropWhile_append_of_pos (by simp), hkept, List.reverse_reverse]

/-! ## Folding keeps lines -/

theorem lowerChar_eq_feed_iff {c : Char} : lowerChar c = '\n' ↔ c = '\n' := by
  refine ⟨Text.eq_of_lowerChar_eq (by decide), ?_⟩
  rintro rfl
  exact Text.lowerChar_of_isBlank (by decide)

theorem count_foldChars (cs : List Char) : (foldChars cs).count '\n' = cs.count '\n' := by
  rw [foldChars, List.count, List.countP_map]
  exact List.countP_congr fun c _ => by simp [lowerChar_eq_feed_iff]

theorem firstLine_foldChars (cs : List Char) : firstLine (foldChars cs) = foldChars (firstLine cs) := by
  have hsame : (fun c => decide (c ≠ '\n')) ∘ lowerChar = fun c => decide (c ≠ '\n') :=
    funext fun c => decide_eq_decide.2 (not_congr lowerChar_eq_feed_iff)
  rw [firstLine, foldChars, List.takeWhile_map, hsame]
  rfl

theorem lastLine_foldChars (cs : List Char) : lastLine (foldChars cs) = foldChars (lastLine cs) := by
  have hfirst := firstLine_foldChars cs.reverse
  rw [foldChars, List.map_reverse] at hfirst
  rw [lastLine, foldChars, lastLine, foldChars, List.map_reverse]
  exact congrArg List.reverse hfirst

/-! ## Tokens on their lines -/

namespace Scan

/-- A text on one line, not empty, that does not end with a carriage return. -/
structure OnLine (text : List Char) : Prop where
  not_mem : '\n' ∉ text
  ne_nil : text ≠ []
  getLast?_ne : text.getLast? ≠ some '\r'

/-- So does what such a text was folded from. -/
theorem OnLine.of_foldChars {text : List Char} (h : OnLine (foldChars text)) : OnLine text where
  not_mem hmem := h.not_mem (List.mem_map.2 ⟨'\n', hmem, lowerChar_eq_feed_iff.2 rfl⟩)
  ne_nil hnil := h.ne_nil (congrArg foldChars hnil)
  getLast?_ne hlast := h.getLast?_ne <| by
    rw [foldChars, List.getLast?_map, hlast]
    exact congrArg some (Text.lowerChar_of_isBlank (by decide))

theorem onLine_of_isWordChar {text : List Char} (hne : text ≠ []) (h : ∀ c ∈ text, isWordChar c) : OnLine text := by
  have hblank : ∀ c, isBlank c → c ∉ text := fun c hc hmem =>
    Bool.false_ne_true ((isWordChar_of_isBlank hc).symm.trans (h c hmem))
  exact ⟨hblank '\n' (by decide), hne, fun hlast => hblank '\r' (by decide) (List.mem_of_getLast? hlast)⟩

theorem Lexeme.onLine {comments : Bool} {before text after : List Char} {k : Kind}
    (h : Lexeme comments before text after (.token k)) : OnLine text := by
  generalize hcls : SegmentClass.token k = cls at h
  cases h with
  | word hc hcs =>
    exact onLine_of_isWordChar (List.cons_ne_nil _ _) (List.forall_mem_cons.2 ⟨isWordChar_of_isLetter hc, hcs⟩)
  | number hne hdigits => exact onLine_of_isWordChar hne fun c hc => isWordChar_of_isDigit (hdigits c hc)
  | string hquote hfeed => exact ⟨by simpa using hfeed, by simp, by rw [List.getLast?_concat]; decide⟩
  | unequal | not | assign => exact ⟨by decide, by decide, by decide⟩
  | @single c _ _ hk =>
    have hother : ∀ d, singleKind? d = none → c ≠ d := by
      rintro d hd rfl
      rw [hk] at hd
      cases hd
    refine ⟨?_, List.cons_ne_nil c [], ?_⟩
    · simpa using (hother '\n' rfl).symm
    · simpa using hother '\r' rfl
  | blank | comment | loneColon | unterminated | unexpected => cases hcls

end Scan

/-- Where a token was found: the source is what stands before it, the characters it was folded from, and the rest. -/
theorem exists_source_of_mem_all {comments : Bool} {file : Int} {source : List Char} {tok : Token}
    (h : tok ∈ (Reader.ofSource comments file source).all.1) :
    ∃ before word after, source = before ++ word ++ after ∧ Scan.OnLine (foldChars word) ∧
      tok.value = ofChars (foldChars word) ∧ tok.file = file ∧ tok.line = before.count '\n' + 1 ∧
      tok.column = (lastLine before).length + 1 ∧ tok.len = word.length := by
  rw [Reader.all_eq] at h
  obtain ⟨s, hs, hsome⟩ := List.mem_filterMap.1 h
  obtain ⟨k, hcls, rfl⟩ := Segment.token?_eq_some_iff.1 hsome
  obtain ⟨front, back, hsplit⟩ := List.append_of_mem hs
  obtain ⟨hlexeme, hstart⟩ := Scan.segmentsFrom_spec (Scan.boundary_nil _) hsplit
  have hsource : foldChars source = front.flatMap Segment.text ++ s.text ++ back.flatMap Segment.text := by
    have hall := Scan.flatMap_segmentsFrom comments {} (foldChars source)
    rw [show Scan.segmentsFrom comments {} (foldChars source) = front ++ s :: back from hsplit] at hall
    simpa using hall.symm
  obtain ⟨upTo, after, rfl, hupTo, -⟩ := List.map_eq_append_iff.1 hsource
  obtain ⟨before, word, rfl, hbefore, hword⟩ := List.map_eq_append_iff.1 hupTo
  rw [hcls, ← hword] at hlexeme
  rw [List.nil_append, ← hbefore, Scan.advance_eq] at hstart
  have hline : s.start.line = before.count '\n' + 1 := by
    rw [hstart, ← count_foldChars before]
    exact Nat.add_comm _ _
  have hcolumn : s.start.column = (lastLine before).length + 1 := by
    have hlength : (lastLine before).length = (lastLine (foldChars before)).length := by
      rw [lastLine_foldChars, foldChars, List.length_map]
    rw [hstart, hlength, lastLine, List.length_reverse]
    exact Nat.add_comm _ _
  refine ⟨before, word, after, rfl, hlexeme.onLine, ?_, rfl, ?_, ?_, ?_⟩
  · rw [foldChars, hword]
  · exact congrArg Int.ofNat hline
  · exact congrArg Int.ofNat hcolumn
  · rw [← hword, List.length_map]

/-! ## Lines of a listing -/

/-- Without a line end at its very end a text has the same lines, an empty last one apart. -/
theorem Text.getElem?_lines_trimEnding {t line : Text} {n : Nat} (h : t.lines[n]? = some line) (hline : line ≠ "") :
    (trimEnding "\n" t).lines[n]? = some line := by
  rw [trimEnding]
  split
  · next r hdrop =>
    have hbytes := congrArg List.reverse (bytes_of_dropBeginning? hdrop)
    rw [List.reverse_reverse, List.reverse_append, List.reverse_reverse] at hbytes
    have ht : t = ⟨r.bytes.reverse⟩ ++ ⟨[0x0A]⟩ ++ "" := (congrArg mk hbytes).trans (append_empty _).symm
    have hlines : t.lines = (⟨r.bytes.reverse⟩ : Text).lines ++ [("" : Text)] := by
      rw [ht]
      exact split_append_sep _ _
    rw [hlines, List.getElem?_append] at h
    split at h
    · exact h
    · exact absurd (List.mem_singleton.1 (List.mem_of_getElem? h)) hline
  · exact h

/-- The lines of a listing are those of the folded source, an empty last one apart. -/
theorem getElem?_foldedLines {source : List Char} {n : Nat} {line : Text}
    (h : (ofChars (foldChars source)).lines[n]? = some line) (hline : line ≠ "") :
    (foldedLines source)[n]? = some line := by
  have htrimmed := Text.getElem?_lines_trimEnding h hline
  rw [foldedLines]
  split
  · next hempty =>
    rw [Text.isEmpty_iff.1 hempty] at htrimmed
    exact absurd (List.mem_singleton.1 (List.mem_of_getElem? htrimmed)) hline
  · exact htrimmed

/-! ## Marks -/

/-- The marks under a word: a caret under its first character and a tilde under each other one. -/
def underline : List Char → List Char
  | [] => []
  | _ :: rest => '^' :: rest.map fun _ => '~'

namespace Report.Style

/-- A line with marks under one of its words, and blanks under what stands before it. -/
def underlined (s : Style) (before word after : List Char) : Text :=
  Text.unlines ["  " ++ ofChars (before ++ word ++ after),
    "  " ++ ofChars (before.map fun _ => ' ') ++ s.paint .green (ofChars (underline word))]

theorem mark_eq {tok : Token} {word : List Char} (h : tok.len = word.length) (hne : word ≠ []) :
    mark tok = ofChars (underline word) := by
  obtain ⟨c, rest, rfl⟩ := List.exists_cons_of_ne_nil hne
  have hcount : (tok.len - 1).toNat = rest.length := by
    rw [h, List.length_cons]
    omega
  have htildes : rest.map (fun _ => '~') = List.replicate rest.length '~' := List.map_const'
  rw [mark, hcount, underline, htildes, ← List.singleton_append, Text.ofChars_append, ← Text.replicate_ofChars]
  rfl

theorem excerpt_eq {s : Style} {tok : Token} {before word after : List Char}
    (hline : s.sourceLine? tok.file tok.line = some (ofChars (before ++ word ++ after)))
    (hcolumn : tok.column = before.length + 1) (hlen : tok.len = word.length) (hne : word ≠ []) :
    s.excerpt tok = s.underlined before word after := by
  have hcount : (tok.column - 1).toNat = before.length := by
    rw [hcolumn]
    omega
  have hblanks : before.map (fun _ => ' ') = List.replicate before.length ' ' := List.map_const'
  rw [excerpt, hline, underlined, hcount, mark_eq hlen hne, hblanks, ← Text.replicate_ofChars]
  rfl

/-- The marks of a token can be drawn where its line fits into a text. -/
theorem markFault?_eq_none {s : Style} {tok : Token} {n m : Nat} (hcolumn : tok.column = n + 1) (hlen : tok.len = m)
    (hn : n ≤ Text.largestSize.toInt) (hm : m ≤ Text.largestSize.toInt) : s.markFault? tok = none := by
  have hlargest : Text.largestSize.toInt = 2 ^ 48 := by decide
  have hone : (1 : Int64).toInt = 1 := by decide
  have hzero : (0 : Int64).toInt = 0 := by decide
  have htildes : Text.countFault? (max (Int64.ofInt tok.len) 1 - 1) = none := by
    have hfits : (Int64.ofInt tok.len).toInt = m := by
      rw [hlen]
      exact Int64.toInt_ofInt_of_le (by omega) (by omega)
    have hcount : (max (Int64.ofInt tok.len) 1 - 1).toInt = max (m : Int) 1 - 1 := by
      rw [Text.toInt_sub_of_fits] <;> rw [Text.toInt_max, hfits, hone] <;> omega
    apply Text.countFault?_eq_none <;> rw [hcount] <;> omega
  have hblanks : Text.countFault? (max (Int64.ofInt tok.column - 1) 0) = none := by
    have hfits : (Int64.ofInt tok.column).toInt = n + 1 := by
      rw [hcolumn]
      exact Int64.toInt_ofInt_of_le (by omega) (by omega)
    have hcount : (max (Int64.ofInt tok.column - 1) 0).toInt = n := by
      rw [Text.toInt_max, hzero, Text.toInt_sub_of_fits] <;> rw [hfits, hone] <;> omega
    apply Text.countFault?_eq_none <;> rw [hcount] <;> omega
  rw [markFault?, htildes, hblanks]
  cases s.sourceLine? tok.file tok.line <;> rfl

end Report.Style

/-- A message about a token of a source shows the line that the token stands on, with the marks under the characters that the
token was folded from and blanks before them. The same place is that of the token in the lines of a listing. -/
theorem marks_underline_token (s : Report.Style) (comments : Bool) {i : Nat} {f : SourceFile} (hf : s.files[i]? = some f)
    {tok : Token} (htok : tok ∈ (Reader.ofSource comments i f.content).all.1) :
    ∃ before word after : List Char,
      s.sourceLine? i tok.line = some (ofChars (before ++ word ++ after)) ∧
      tok.column = before.length + 1 ∧ tok.len = word.length ∧ word ≠ [] ∧ ofChars (foldChars word) = tok.value ∧
      s.excerpt tok = s.underlined before word after ∧
      (f.content.length ≤ Text.largestSize.toInt → ∀ message,
        s.error? tok message =
          .ok (s.place tok ++ s.paint .red "error:" ++ " " ++ message ++ "\n" ++ s.underlined before word after) ∧
        ∀ settings w, s.warning? settings w tok message =
          .ok (if settings.warning w then s.place tok ++ s.paint .yellow "warning:" ++ " " ++ message ++ " [-W" ++ w.name ++
            "]\n" ++ s.underlined before word after else "")) ∧
      ∃ rest, (foldedLines f.content)[(tok.line - 1).toNat]? =
        some (ofChars (foldChars before ++ foldChars word ++ rest)) := by
  obtain ⟨before, word, after, hsource, honline, hvalue, hfile, hline, hcolumn, hlen⟩ := exists_source_of_mem_all htok
  have hword := honline.of_foldChars
  obtain ⟨body, n, hbody, hlast⟩ := exists_returns (firstLine after)
  have hfound := Text.getElem?_lines hword.not_mem before after
  have hshown : s.sourceLine? i tok.line = some (ofChars (lastLine before ++ word ++ body)) := by
    have hend : (lastLine before ++ word ++ body).getLast? ≠ some '\r' := by
      rw [List.getLast?_append, List.getLast?_append_of_ne_nil _ hword.ne_nil]
      cases hc : body.getLast? with
      | none => exact hword.getLast?_ne
      | some c => rwa [hc] at hlast
    have hindex : tok.line.toNat - 1 = before.count '\n' := by omega
    rw [hbody, ← List.append_assoc] at hfound
    rw [Report.Style.sourceLine?, show s.file? i = some f from hf]
    show (if tok.line ≤ 0 then none else _) = _
    rw [if_neg (by omega), hindex, hsource, hfound]
    exact congrArg some (dropWhile_returns hend n)
  have hexcerpt := Report.Style.excerpt_eq (hfile ▸ hshown) hcolumn hlen hword.ne_nil
  refine ⟨lastLine before, word, body, hshown, hcolumn, hlen, hword.ne_nil, hvalue.symm, hexcerpt,
    fun hsize message => ?_, firstLine (foldChars after), ?_⟩
  · have hnone : s.markFault? tok = none := by
      have hfits := congrArg List.length hsource
      have hbefore : (lastLine before).length ≤ before.length := by
        rw [lastLine, List.length_reverse]
        exact (List.takeWhile_prefix _).length_le.trans_eq List.length_reverse
      simp only [List.length_append] at hfits
      exact Report.Style.markFault?_eq_none hcolumn hlen (by omega) (by omega)
    rw [Report.Style.error?, hnone, ← hexcerpt]
    refine ⟨rfl, fun settings w => ?_⟩
    rw [Report.Style.warning?, hnone]
    rfl
  · have hlisted := Text.getElem?_lines honline.not_mem (foldChars before) (foldChars after)
    rw [← Text.foldChars_append, ← Text.foldChars_append, ← hsource, lastLine_foldChars, count_foldChars] at hlisted
    have hindex : (tok.line - 1).toNat = before.count '\n' := by omega
    rw [hindex]
    refine getElem?_foldedLines hlisted fun hempty => ?_
    have hnil : foldChars (lastLine before) ++ foldChars word ++ firstLine (foldChars after) = [] := by
      rw [← Text.chars_ofChars (_ ++ _ ++ _), hempty]
      exact Text.chars_ofChars []
    exact honline.ne_nil (List.append_eq_nil_iff.1 (List.append_eq_nil_iff.1 hnil).1).2

/-- A source with an indented word on its last line, which ends with a carriage return. -/
def indentedSource : SourceFile := ⟨"a.alw", "X ;\r\n  Écrire\r".toList⟩

/-- The word, as it is scanned. -/
def indentedWord : Token := ⟨.ident, "écrire", 0, 2, 3, 6⟩

theorem indentedWord_underlined :
    indentedWord ∈ (Reader.ofSource true 0 indentedSource.content).all.1 ∧
      ∃ before word after,
        ({ files := [indentedSource] } : Report.Style).sourceLine? 0 2 = some (ofChars (before ++ word ++ after)) ∧
        before.length = 2 ∧ word.length = 6 ∧ ofChars (foldChars word) = "écrire" := by
  have hmem : indentedWord ∈ (Reader.ofSource true 0 indentedSource.content).all.1 := by decide +kernel
  obtain ⟨before, word, after, hshown, hcolumn, hlen, -, hvalue, -⟩ :=
    marks_underline_token { files := [indentedSource] } true (i := 0) rfl hmem
  have hcolumn : (3 : Int) = before.length + 1 := hcolumn
  have hlen : (6 : Int) = word.length := hlen
  exact ⟨hmem, before, word, after, hshown, by omega, by omega, hvalue⟩

end AlgolMips
