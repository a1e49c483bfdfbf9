import AlgolMips.Options.Layout
import AlgolMips.Proofs.Texts

/-!
# Wrapping

A text is wrapped greedily: no word is lost, every line keeps to the width unless it is one word, and no line has room for
the first word of the next. So the lines of an entry keep to the page. A page is no wider than a terminal can be, which
keeps the columns on it from being too wide to be filled, and what is counted on it from wrapping around.
-/

namespace AlgolMips.Options

/-! ## Greedy lines -/

/-- A line of words with single spaces between them, within `width` bytes unless it is one word. -/
structure IsLine (width : Int) (l : Text) : Prop where
  ne_empty : l ≠ ""
  joined : l = Text.join " " l.words
  fits : l.size ≤ width ∨ l.words.length = 1

/-- The first word of the next line has no room on a line. -/
def NoRoom (width : Int) (l next : Text) : Prop := ∃ w rest, next.words = w :: rest ∧ width < l.size + 1 + w.size

/-- Words on lines that are as full as they can be. -/
structure Greedy (width : Int) (ws lines : List Text) : Prop where
  words : lines.flatMap Text.words = ws
  isLine : ∀ l ∈ lines, IsLine width l
  noRoom : lines.IsChain (NoRoom width)

namespace IsLine

variable {width : Int} {line w : Text}

theorem words_ne_nil (h : IsLine width line) : line.words ≠ [] := by
  intro hnil
  have hjoined := h.joined
  rw [hnil] at hjoined
  exact h.ne_empty hjoined

theorem word (width : Int) (hw : w.words = [w]) : IsLine width w where
  ne_empty := by
    rintro rfl
    rw [Text.words_empty] at hw
    cases hw
  joined := by rw [hw]; rfl
  fits := .inr (by rw [hw]; rfl)

theorem append (h : IsLine width line) (hw : w.words = [w]) (hsize : line.size + w.size + 1 ≤ width) :
    IsLine width (line ++ " " ++ w) where
  ne_empty := fun hempty => h.ne_empty (Text.append_eq_empty_iff.1 (Text.append_eq_empty_iff.1 hempty).1).1
  joined := by rw [Text.words_append, hw, Text.join_concat " " w h.words_ne_nil, ← h.joined]
  fits := by
    refine .inl ?_
    rw [Text.size_append, Text.size_append, show Text.size " " = 1 from rfl]
    omega

end IsLine

/-- The line that has begun goes on, and after it the remaining words are laid out the same way. -/
theorem greedy_wrapWords {width : Nat} {line : Text} {ws : List Text} (hline : IsLine width line)
    (hws : ∀ w ∈ ws, w.words = [w]) :
    Greedy width (line.words ++ ws) (wrapWords width line ws) ∧
      ∃ l ls, wrapWords width line ws = l :: ls ∧ line.words <+: l.words := by
  induction ws generalizing line with
  | nil =>
    have hlines : wrapWords width line [] = [line] := if_neg (mt Text.isEmpty_iff.1 hline.ne_empty)
    rw [hlines]
    exact ⟨⟨by simp, by simpa using hline, .singleton line⟩, line, [], rfl, List.prefix_refl _⟩
  | cons w rest ih =>
    obtain ⟨hw, hrest⟩ := List.forall_mem_cons.1 hws
    rw [wrapWords, if_neg (mt Text.isEmpty_iff.1 hline.ne_empty)]
    split
    · next hlong =>
      obtain ⟨hgreedy, l, ls, hlines, hprefix⟩ := ih (IsLine.word width hw) hrest
      rw [hw] at hgreedy hprefix
      refine ⟨⟨?_, ?_, ?_⟩, line, _, rfl, List.prefix_refl _⟩
      · rw [List.flatMap_cons, hgreedy.words]
        rfl
      · exact List.forall_mem_cons.2 ⟨hline, hgreedy.isLine⟩
      · obtain ⟨tail, htail⟩ := hprefix
        have hroom : NoRoom width line l := ⟨w, tail, htail.symm, by omega⟩
        have hchain := hgreedy.noRoom
        rw [hlines] at hchain ⊢
        exact .cons_cons hroom hchain
    · next hshort =>
      have hlonger := hline.append hw (by omega)
      have hwords := Text.words_append line w
      rw [hw] at hwords
      obtain ⟨hgreedy, l, ls, hlines, hprefix⟩ := ih hlonger hrest
      rw [hwords, List.append_assoc, List.singleton_append] at hgreedy
      rw [hwords] at hprefix
      exact ⟨hgreedy, l, ls, hlines, (List.prefix_append _ _).trans hprefix⟩

theorem greedy_wrap (t : Text) {width : Int} (h : 0 < width) : Greedy width t.words (wrap t width) := by
  have hwords : ∀ w ∈ t.words, w.words = [w] := fun w hw => Text.words_of_mem_words hw
  obtain ⟨n, rfl⟩ := Int.eq_ofNat_of_zero_le (Int.le_of_lt h)
  rw [wrap, if_neg (Int.not_le.2 h), Int.toNat_natCast]
  generalize t.words = ws at hwords
  cases ws with
  | nil => exact ⟨rfl, nofun, .nil⟩
  | cons w rest =>
    obtain ⟨hw, hrest⟩ := List.forall_mem_cons.1 hwords
    have hgreedy := (greedy_wrapWords (IsLine.word n hw) hrest).1
    rw [hw] at hgreedy
    exact hgreedy

/-! ## Lines of an entry -/

/-- What the indent, the left column and a mark leave of the page. -/
def Columns.free (c : Columns) (mark : Text) : Int := c.page.toInt - (8 + c.left.toInt + 1 + 2 + mark.size)

/-- A page has no more columns than a terminal can have. -/
theorem toInt_pageWidth_lt (terminal : Option UInt16) : (pageWidth terminal).toInt < 2 ^ 16 := by
  cases terminal with
  | none => decide
  | some columns =>
    have hcolumns := columns.toNat_lt
    have htwenty : (20 : Int64).toInt = 20 := rfl
    rw [pageWidth, Text.toInt_max, Int64.toInt_ofNat_of_lt (by omega), htwenty]
    omega

/-- A column that is not too wide is filled. -/
theorem width_inColumn (width : Int64) (hlo : 0 ≤ width.toInt) (hhi : width.toInt ≤ widest) (t : Text) :
    ((inColumn width t).width : Int) = max width.toInt t.width := by
  have habs : (width.toInt.natAbs : Int) = width.toInt := Int.natAbs_of_nonneg hlo
  rw [inColumn, if_neg (by omega), Text.width_padRight]
  omega

namespace Columns

variable {c : Columns} {mark : Text}

theorem page_eq (c : Columns) (mark : Text) :
    c.page.toInt = c.free mark + (8 + c.left.toInt + 1 + 2 + mark.size) := by
  rw [free]
  omega

theorem toInt_room (hleft : 0 ≤ c.left.toInt) (hfree : 10 ≤ c.free mark) : (c.room mark).toInt = c.free mark := by
  have hlimit := c.page.toInt_lt
  have hpage := c.page_eq mark
  have hsize : (Int64.ofNat mark.size).toInt = mark.size := Int64.toInt_ofNat_of_lt (by omega)
  have hcounted : (c.page - (8 + c.left + 1 + 2 + Int64.ofNat mark.size)).toInt = (c.free mark).bmod (2 ^ 64) := by
    simp [Int64.toInt_sub, Int64.toInt_add, free, hsize]
  rw [room, Text.toInt_max, hcounted, Int.bmod_eq_of_le (by omega) (by omega)]
  exact Int.max_eq_right hfree

theorem toInt_middle (hleft : 0 ≤ c.left.toInt) (hfree : 10 ≤ c.free mark) :
    (c.middle mark).toInt = min (c.usage : Int) (c.free mark) := by
  have hlimit := c.page.toInt_lt
  have hpage := c.page_eq mark
  rw [middle, toInt_room hleft hfree]
  split
  · rw [toInt_room hleft hfree]
    omega
  · rw [Int64.toInt_ofNat_of_lt (by omega)]
    omega

theorem toInt_gap (hleft : 0 ≤ c.left.toInt) (hfree : 10 ≤ c.free mark) : c.gap.toInt = c.left.toInt + 1 := by
  have hlimit := c.page.toInt_lt
  have hpage := c.page_eq mark
  have hone : (1 : Int64).toInt = 1 := rfl
  rw [gap, Text.toInt_add_of_fits (by omega) (by omega), hone]

/-- The first line of an entry, with the first line of its explanation. -/
def opening (c : Columns) (name first mark : Text) : Text :=
  if mark.isEmpty then indent 2 ++ inColumn c.left name ++ " " ++ first
  else indent 2 ++ inColumn c.left name ++ " " ++ inColumn (c.middle mark) first ++ "  " ++ mark

theorem entry_eq (c : Columns) (name usage mark : Text) :
    entry c name usage mark = Text.unlines (c.opening name ((wrap usage (c.room mark).toInt).headD "") mark ::
      (wrap usage (c.room mark).toInt).tail.map fun l => indent 2 ++ Text.replicate c.gap.toInt.toNat " " ++ l) :=
  rfl

theorem width_head_append (c : Columns) (name t : Text) :
    (indent 2 ++ inColumn c.left name ++ " " ++ t).width = 8 + (inColumn c.left name).width + 1 + t.width := by
  rw [Text.width_append (by decide) (by decide), indent, Text.width_replicate_append]
  rfl

theorem width_opening_le {name first : Text} (hsmall : c.page.toInt < 2 ^ 16) (hname : name.width ≤ c.left.toInt)
    (hfree : 10 ≤ c.free mark) (hfirst : first.width ≤ c.free mark) : (c.opening name first mark).width ≤ c.page.toInt := by
  have hpage := c.page_eq mark
  have hwidest : (widest : Int) = 1000000 := rfl
  have hleft := width_inColumn c.left (by omega) (by omega) name
  have hmark := mark.width_le_size
  rw [opening]
  split
  · rw [width_head_append]
    omega
  · have hmiddle := c.toInt_middle (by omega) hfree
    have hcolumn := width_inColumn (c.middle mark) (by omega) (by omega) first
    rw [Text.width_append (by decide) (by decide), width_head_append, show Text.size "  " = 2 from rfl]
    omega

end Columns

theorem width_le_of_mem_wrap {usage l : Text} {room : Int} (hroom : 0 < room)
    (hwords : ∀ w ∈ usage.words, (w.width : Int) ≤ room) (h : l ∈ wrap usage room) : l.width ≤ room := by
  have hgreedy := greedy_wrap usage hroom
  have hline := hgreedy.isLine l h
  rcases hline.fits with hsize | hone
  · have hwidth := l.width_le_size
    omega
  · obtain ⟨w, hw⟩ := List.length_eq_one_iff.1 hone
    have hjoined := hline.joined
    rw [hw] at hjoined
    refine hwords l ?_
    rw [← hgreedy.words, List.mem_flatMap]
    exact ⟨l, h, by rw [hw, hjoined]; exact List.mem_singleton_self w⟩

/-- No line of an entry is wider than the page. -/
theorem width_le_of_mem_entry {c : Columns} {name usage mark l : Text} (hsmall : c.page.toInt < 2 ^ 16)
    (hname : name.width ≤ c.left.toInt) (hfree : 10 ≤ c.free mark)
    (hwords : ∀ w ∈ usage.words, (w.width : Int) ≤ c.free mark) (h : l ∈ (entry c name usage mark).lines) :
    l.width ≤ c.page.toInt := by
  have hlines {l : Text} (hl : l ∈ wrap usage (c.free mark)) : l.width ≤ c.free mark :=
    width_le_of_mem_wrap (by omega) hwords hl
  have hpage := c.page_eq mark
  rw [c.entry_eq, c.toInt_room (by omega) hfree] at h
  rcases Text.mem_lines_unlines h with rfl | ⟨t, ht, hl⟩
  · rw [Text.width_empty]
    omega
  have hwidth := Text.width_le_of_mem_lines hl
  rcases List.mem_cons.1 ht with rfl | hfurther
  · have hfirst : ((wrap usage (c.free mark)).headD "").width ≤ c.free mark := by
      cases hwrap : wrap usage (c.free mark) with
      | nil =>
        rw [List.headD_nil, Text.width_empty]
        omega
      | cons first _ => exact hlines (l := first) (by rw [hwrap]; exact List.mem_cons_self)
    exact Int.le_trans (Int.ofNat_le.2 hwidth) (Columns.width_opening_le hsmall hname hfree hfirst)
  · obtain ⟨further, hmem, rfl⟩ := List.mem_map.1 hfurther
    have hline := hlines (List.mem_of_mem_tail hmem)
    rw [Text.append_assoc, indent, Text.width_replicate_append, Text.width_replicate_append,
      c.toInt_gap (by omega) hfree] at hwidth
    omega

/-- Words are wrapped greedily and none is lost. On a page for any terminal, or for none, where the left column has room for
a name and leaves ten columns or more, and enough for each word of an explanation, the room is what is left of the page, and
the entry is written with no line wider than the page. -/
theorem wrapped_words_keep_to_page :
    (∀ (t : Text) (width : Int), 0 < width → Greedy width t.words (wrap t width)) ∧
      ∀ (terminal : Option UInt16) (left : Int64) (longest : Nat) (name usage mark : Text),
        let c : Columns := ⟨pageWidth terminal, left, longest⟩
        name.width ≤ left.toInt → 10 ≤ c.free mark → (∀ w ∈ usage.words, (w.width : Int) ≤ c.free mark) →
        (c.room mark).toInt = c.free mark ∧ entry? c name usage mark = .ok (entry c name usage mark) ∧
          ∀ l ∈ (entry c name usage mark).lines, l.width ≤ c.page.toInt := by
  refine ⟨fun t width h => greedy_wrap t h, ?_⟩
  intro terminal left longest name usage mark c hname hfree hwords
  have hsmall : c.page.toInt < 2 ^ 16 := toInt_pageWidth_lt terminal
  have hpage := c.page_eq mark
  have hleft : 0 ≤ c.left.toInt := Int.le_trans (Int.natCast_nonneg _) hname
  refine ⟨c.toInt_room hleft hfree, ?_, fun l hl => width_le_of_mem_entry hsmall hname hfree hwords hl⟩
  have hgap := c.toInt_gap hleft hfree
  have hlargest : Text.largestSize.toInt = 2 ^ 48 := by decide
  rw [ entry?, Text.countFault?_eq_none (by omega) (by omega)]

/-- On a terminal of forty columns. -/
def narrowPage : Columns := ⟨pageWidth (some 40), 8, 40⟩

theorem narrowPage_entry :
    Greedy 18 (Text.words "the number of words kept in memory") (wrap "the number of words kept in memory" 18) ∧
      entry? narrowPage "--größe" "the number of words kept in memory" "|3|" =
        .ok (entry narrowPage "--größe" "the number of words kept in memory" "|3|") ∧
      ∀ l ∈ (entry narrowPage "--größe" "the number of words kept in memory" "|3|").lines, (l.width : Int) ≤ 40 := by
  obtain ⟨-, hentry, hlines⟩ := wrapped_words_keep_to_page.2 (some 40) 8 40 "--größe"
    "the number of words kept in memory" "|3|" (by decide +kernel) (by decide) (by decide +kernel)
  exact ⟨wrapped_words_keep_to_page.1 _ 18 (by decide), hentry, hlines⟩

end AlgolMips.Options
