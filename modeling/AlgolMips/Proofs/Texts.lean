import AlgolMips.Proofs.Pieces
import AlgolMips.Text.Copies
import AlgolMips.Text.Digits
import Mathlib.Data.List.TakeDrop
import Mathlib.Data.List.TakeWhile

/-!
# Facts about texts

Numbers have different texts, made of digits and a sign where they are negative. A text that is cut at a byte consists of
the two parts and the byte between them, and splitting it at a byte and joining the parts undo each other. Texts without a
line feed are read back as the lines of the text that they make up, and words as its words. A byte of the ASCII range
stands in a text of characters only for the character with its number.
-/

namespace AlgolMips.Text

theorem append_empty (t : Text) : t ++ ofString "" = t := congrArg mk (List.append_nil t.bytes)

theorem append_assoc (a b c : Text) : a ++ b ++ c = a ++ (b ++ c) :=
  congrArg mk (List.append_assoc a.bytes b.bytes c.bytes)

theorem append_left_cancel {a b c : Text} (h : a ++ b = a ++ c) : b = c :=
  congrArg mk (List.append_cancel_left (congrArg bytes h))

theorem append_right_cancel {a b c : Text} (h : a ++ c = b ++ c) : a = b :=
  congrArg mk (List.append_cancel_right (congrArg bytes h))

theorem isEmpty_iff {t : Text} : t.isEmpty = true ↔ t = "" :=
  List.isEmpty_iff.trans ⟨congrArg mk, congrArg bytes⟩

theorem append_eq_empty_iff {a b : Text} : a ++ b = "" ↔ a = "" ∧ b = "" := by
  rw [← isEmpty_iff, ← isEmpty_iff, ← isEmpty_iff]
  exact List.isEmpty_iff.trans (List.append_eq_nil_iff.trans (and_congr List.isEmpty_iff.symm List.isEmpty_iff.symm))

theorem take_append_drop (n : Nat) (t : Text) : (⟨t.bytes.take n⟩ : Text) ++ ⟨t.bytes.drop n⟩ = t :=
  congrArg mk (List.take_append_drop n t.bytes)

/-! ## Texts of numbers -/

theorem ofString_ofList (cs : List Char) : ofString (String.ofList cs) = ofChars cs := by
  simp [ofString, ofChars, String.toUTF8, String.toByteArray_ofList, List.utf8Encode]

theorem ofString_injective {a b : String} (h : ofString a = ofString b) : a = b := by
  simp only [ofString, String.toUTF8, mk.injEq, Array.toList_inj] at h
  exact String.toByteArray_inj.1 (ByteArray.ext h)

theorem ofNat_injective {m n : Nat} (h : ofNat m = ofNat n) : m = n := by
  have hdigits := ofString_injective h
  rw [Nat.toString_eq_ofList_toDigits, Nat.toString_eq_ofList_toDigits, String.ofList_inj] at hdigits
  rw [← @Nat.ofDigitChars_ten_toDigits m, hdigits, Nat.ofDigitChars_ten_toDigits]

/-- A digit is written as one byte. -/
theorem utf8EncodeChar_of_isDigit {c : Char} (h : c.isDigit = true) :
    ∃ b, String.utf8EncodeChar c = [b] ∧ isDigit b := by
  simp only [Char.isDigit, Bool.and_eq_true, decide_eq_true_eq, ge_iff_le, UInt32.le_iff_toNat_le] at h
  have hlo : 48 ≤ c.val.toNat := h.1
  have hhi : c.val.toNat ≤ 57 := h.2
  have hsize : c.utf8Size = 1 := by
    rw [Char.utf8Size_eq_one_iff, UInt32.le_iff_toNat_le]
    exact Nat.le_trans hhi (by decide)
  refine ⟨_, String.utf8EncodeChar_eq_singleton hsize, ?_⟩
  simp only [isDigit, Bool.and_eq_true, decide_eq_true_eq, UInt8.le_iff_toNat_le, UInt32.toNat_toUInt8]
  rw [Nat.mod_eq_of_lt (by omega)]
  exact ⟨hlo, hhi⟩

theorem isDigit_of_mem_ofNat {n : Nat} {b : UInt8} (h : b ∈ (ofNat n).bytes) : isDigit b := by
  rw [ofNat, Nat.toString_eq_ofList_toDigits, ofString_ofList] at h
  obtain ⟨c, hc, hb⟩ := List.mem_flatMap.1 h
  obtain ⟨b', hb', hd⟩ := utf8EncodeChar_of_isDigit (Nat.isDigit_of_mem_toDigits (by decide) (by decide) hc)
  rw [hb', List.mem_singleton] at hb
  exact hb ▸ hd

theorem ofString_append (a b : String) : ofString (a ++ b) = ofString a ++ ofString b :=
  congrArg mk (by simp [ofString])

theorem mem_ofInt {n : Int} {b : UInt8} (h : b ∈ (ofInt n).bytes) : isDigit b ∨ b = 0x2D := by
  cases n with
  | ofNat m => exact .inl (isDigit_of_mem_ofNat h)
  | negSucc m =>
    have hsplit : ofInt (.negSucc m) = "-" ++ ofNat (m + 1) := ofString_append _ _
    have hsign : (ofString "-").bytes = [0x2D] := rfl
    rw [hsplit, bytes_append, hsign, List.mem_append, List.mem_singleton] at h
    exact h.symm.imp_left isDigit_of_mem_ofNat

/-! ### Digits of numbers -/

theorem bytes_ofNat_of_lt {n : Nat} (h : n < 10) : (ofNat n).bytes = [n.toUInt8 + 0x30] := by
  have hall : ∀ n < 10, (ofNat n).bytes = [n.toUInt8 + 0x30] := by decide
  exact hall n h

theorem bytes_ofNat_of_le {n : Nat} (h : 10 ≤ n) :
    (ofNat n).bytes = (ofNat (n / 10)).bytes ++ [(n % 10).toUInt8 + 0x30] := by
  rw [← bytes_ofNat_of_lt (Nat.mod_lt n (by decide))]
  simp only [ofNat, Nat.toString_eq_ofList_toDigits, ofString_ofList, ofChars]
  rw [Nat.toDigits_of_base_le (by decide) h, Nat.toDigits_of_lt_base (Nat.mod_lt n (by decide)), List.flatMap_append]

theorem digitsValue_concat (ds : List UInt8) (b : UInt8) :
    digitsValue (ds ++ [b]) = digitsValue ds * 10 + (b.toNat - 0x30) := by
  simp [digitsValue]

/-- The digits of a number spell it. -/
theorem digitsValue_ofNat (n : Nat) : digitsValue (ofNat n).bytes = n := by
  have hlast : ∀ d < 10, (d.toUInt8 + 0x30).toNat - 0x30 = d := by decide
  induction n using Nat.strongRecOn with
  | ind n ih =>
    by_cases hn : n < 10
    · rw [bytes_ofNat_of_lt hn, ← List.nil_append [_], digitsValue_concat, hlast n hn]
      exact Nat.zero_add n
    · rw [bytes_ofNat_of_le (by omega), digitsValue_concat, ih (n / 10) (by omega), hlast _ (by omega)]
      omega

/-- The first digit of a number is a zero only if it is the only one. -/
theorem ofNat_eq_cons (n : Nat) : ∃ b ds, (ofNat n).bytes = b :: ds ∧ (b = 0x30 → n = 0) := by
  have hfirst : ∀ d < 10, d.toUInt8 + 0x30 = 0x30 → d = 0 := by decide
  induction n using Nat.strongRecOn with
  | ind n ih =>
    by_cases hn : n < 10
    · exact ⟨_, [], bytes_ofNat_of_lt hn, hfirst n hn⟩
    · obtain ⟨b, ds, hbytes, hzero⟩ := ih (n / 10) (by omega)
      refine ⟨b, ds ++ [(n % 10).toUInt8 + 0x30], ?_, fun hb => absurd (hzero hb) (by omega)⟩
      rw [bytes_ofNat_of_le (by omega), hbytes, List.cons_append]

theorem bytes_ofInt_negSucc (n : Nat) : (ofInt (.negSucc n)).bytes = 0x2D :: (ofNat (n + 1)).bytes :=
  congrArg bytes (ofString_append "-" _)

/-! ## Cutting -/

theorem cut_fst (sep : UInt8) (t : Text) : (t.cut sep).1 = ⟨t.bytes.takeWhile (· != sep)⟩ := by
  rw [cut, List.span_eq_takeWhile_dropWhile]
  cases t.bytes.dropWhile (· != sep) <;> rfl

theorem cut_of_not_mem {sep : UInt8} {t : Text} (h : sep ∉ t.bytes) : t.cut sep = (t, none) := by
  have hall : ∀ b ∈ t.bytes, (b != sep) = true := fun b hb => bne_iff_ne.2 fun heq => h (heq ▸ hb)
  rw [cut, List.span_eq_takeWhile_dropWhile, List.takeWhile_eq_self_iff.2 hall, List.dropWhile_eq_nil_iff.2 hall]

theorem cut_append {sep : UInt8} {front : List UInt8} (h : sep ∉ front) (rest : List UInt8) :
    cut sep ⟨front ++ sep :: rest⟩ = (⟨front⟩, some ⟨rest⟩) := by
  have hall : ∀ b ∈ front, (b != sep) = true := fun b hb => bne_iff_ne.2 fun heq => h (heq ▸ hb)
  rw [cut, List.span_eq_takeWhile_dropWhile, List.takeWhile_append_of_pos hall, List.dropWhile_append_of_pos hall]
  simp

theorem bytes_of_cut {sep : UInt8} {t first rest : Text} (h : t.cut sep = (first, some rest)) :
    t.bytes = first.bytes ++ sep :: rest.bytes := by
  by_cases hmem : sep ∈ t.bytes
  · obtain ⟨front, back, heq, hfront⟩ := List.eq_append_cons_of_mem hmem
    obtain ⟨bytes⟩ := t
    subst heq
    rw [cut_append hfront] at h
    cases h
    rfl
  · rw [cut_of_not_mem hmem] at h
    cases h

theorem eq_of_cut {sep : UInt8} {t first : Text} (h : t.cut sep = (first, none)) : t = first := by
  by_cases hmem : sep ∈ t.bytes
  · obtain ⟨front, back, heq, hfront⟩ := List.eq_append_cons_of_mem hmem
    obtain ⟨bytes⟩ := t
    subst heq
    rw [cut_append hfront] at h
    cases h
  · rw [cut_of_not_mem hmem] at h
    exact congrArg Prod.fst h

/-! ## Characters and bytes -/

theorem le_toNat_or {a b : UInt8} (h : 128 ≤ b.toNat) : 128 ≤ (a ||| b).toNat := by
  rw [UInt8.toNat_or]
  exact Nat.le_trans h Nat.right_le_or

/-- Longer encodings are made of bytes beyond the ASCII range. -/
theorem le_toNat_of_mem_utf8EncodeChar {c : Char} (hlong : c.utf8Size ≠ 1) {b : UInt8}
    (h : b ∈ String.utf8EncodeChar c) : 128 ≤ b.toNat := by
  rcases c.utf8Size_eq with hsize | hsize | hsize | hsize
  · exact absurd hsize hlong
  · simp only [String.utf8EncodeChar_eq_cons_cons hsize, List.mem_cons, List.not_mem_nil, or_false] at h
    rcases h with rfl | rfl <;> exact le_toNat_or (by decide)
  · simp only [String.utf8EncodeChar_eq_cons_cons_cons hsize, List.mem_cons, List.not_mem_nil, or_false] at h
    rcases h with rfl | rfl | rfl <;> exact le_toNat_or (by decide)
  · simp only [String.utf8EncodeChar_eq_cons_cons_cons_cons hsize, List.mem_cons, List.not_mem_nil, or_false] at h
    rcases h with rfl | rfl | rfl | rfl <;> exact le_toNat_or (by decide)

/-- A byte of the ASCII range stands for the character with its number. -/
theorem mem_of_mem_ofChars {c : Char} (hc : c.toNat < 128) {cs : List Char} (h : c.toNat.toUInt8 ∈ (ofChars cs).bytes) :
    c ∈ cs := by
  obtain ⟨d, hd, hb⟩ := List.mem_flatMap.1 h
  have hbyte : c.toNat.toUInt8.toNat = c.toNat := Nat.mod_eq_of_lt (by omega)
  by_cases hsize : d.utf8Size = 1
  · rw [String.utf8EncodeChar_eq_singleton hsize, List.mem_singleton] at hb
    have hn : d.toNat ≤ 127 := UInt32.le_iff_toNat_le.1 (Char.utf8Size_eq_one_iff.1 hsize)
    have hsame : c.toNat = d.val.toNat % 256 := by rw [← hbyte, hb, UInt32.toNat_toUInt8]
    have heq : c = d := Char.toNat_inj.1 (hsame.trans (Nat.mod_eq_of_lt (Nat.lt_of_le_of_lt hn (by decide))))
    exact heq ▸ hd
  · have hlarge := le_toNat_of_mem_utf8EncodeChar hsize hb
    omega

/-! ## Parts between separators -/

theorem join_cons (sep t : Text) {ts : List Text} (h : ts ≠ []) : join sep (t :: ts) = t ++ sep ++ join sep ts := by
  obtain ⟨u, us, rfl⟩ := List.exists_cons_of_ne_nil h
  rfl

theorem join_concat (sep t : Text) {ts : List Text} (h : ts ≠ []) : join sep (ts ++ [t]) = join sep ts ++ sep ++ t := by
  induction ts with
  | nil => exact absurd rfl h
  | cons u us ih =>
    by_cases hus : us = []
    · rw [hus]
      rfl
    · rw [List.cons_append, join_cons sep u (by simp), ih hus, join_cons sep u hus]
      simp only [append_assoc]

section Split

variable {sep : UInt8}

theorem split_go_ne_nil (sep : UInt8) (bs : List UInt8) : split.go sep bs ≠ [] := by
  cases bs with
  | nil => nofun
  | cons b r =>
    rw [split.go]
    split
    · nofun
    · split <;> nofun

theorem split_go_cons (b : UInt8) (r : List UInt8) :
    split.go sep (b :: r) = if b = sep then [] :: split.go sep r else (split.go sep r).modifyHead (b :: ·) := by
  rw [split.go]
  cases hgo : split.go sep r with
  | nil => exact absurd hgo (split_go_ne_nil sep r)
  | cons p ps => rfl

/-- Behind a separator splitting begins anew. -/
theorem split_go_append_sep (a b : List UInt8) :
    split.go sep (a ++ sep :: b) = split.go sep a ++ split.go sep b := by
  induction a with
  | nil =>
    rw [List.nil_append, split_go_cons, if_pos rfl]
    rfl
  | cons x a ih =>
    obtain ⟨p, ps, hgo⟩ := List.exists_cons_of_ne_nil (split_go_ne_nil sep a)
    rw [List.cons_append, split_go_cons, split_go_cons, ih, hgo]
    split <;> rfl

theorem split_go_of_not_mem {bs : List UInt8} (h : sep ∉ bs) : split.go sep bs = [bs] := by
  induction bs with
  | nil => rfl
  | cons b r ih =>
    rw [List.mem_cons, not_or] at h
    rw [split_go_cons, if_neg (Ne.symm h.1), ih h.2]
    rfl

theorem not_mem_of_mem_split_go {bs part : List UInt8} (h : part ∈ split.go sep bs) : sep ∉ part := by
  induction bs generalizing part with
  | nil =>
    obtain rfl : part = [] := List.mem_singleton.1 h
    exact List.not_mem_nil
  | cons b r ih =>
    obtain ⟨q, qs, hgo⟩ := List.exists_cons_of_ne_nil (split_go_ne_nil sep r)
    rw [split_go_cons, hgo] at h
    rw [hgo] at ih
    split at h
    · rcases List.mem_cons.1 h with rfl | hmem
      · exact List.not_mem_nil
      · exact ih hmem
    · next hb =>
      rcases List.mem_cons.1 h with rfl | hmem
      · exact List.not_mem_cons_of_ne_of_not_mem (Ne.symm hb) (ih List.mem_cons_self)
      · exact ih (List.mem_cons_of_mem _ hmem)

theorem split_append_sep (a b : Text) : (a ++ ⟨[sep]⟩ ++ b).split sep = a.split sep ++ b.split sep := by
  have hbytes : (a ++ ⟨[sep]⟩ ++ b).bytes = a.bytes ++ sep :: b.bytes := by simp
  rw [split, split, split, hbytes, split_go_append_sep, List.map_append]

theorem split_of_not_mem {t : Text} (h : sep ∉ t.bytes) : t.split sep = [t] := by
  rw [split, split_go_of_not_mem h]
  rfl

theorem not_mem_of_mem_split {t part : Text} (h : part ∈ t.split sep) : sep ∉ part.bytes := by
  obtain ⟨bs, hbs, rfl⟩ := List.mem_map.1 h
  exact not_mem_of_mem_split_go hbs

theorem length_split (t : Text) : (t.split sep).length = t.bytes.count sep + 1 := by
  rw [split, List.length_map]
  induction t.bytes with
  | nil => rfl
  | cons b r ih =>
    rw [split_go_cons, List.count_cons]
    by_cases hb : b = sep <;> simp [hb, ih]

/-- The parts of a text make it up again. -/
theorem join_split (t : Text) : join ⟨[sep]⟩ (t.split sep) = t := by
  obtain ⟨bytes⟩ := t
  rw [split]
  induction bytes with
  | nil => rfl
  | cons b r ih =>
    obtain ⟨p, ps, hgo⟩ := List.exists_cons_of_ne_nil (split_go_ne_nil sep r)
    rw [hgo, List.map_cons] at ih
    rw [split_go_cons, hgo]
    split
    · next hb =>
      rw [List.map_cons, List.map_cons, join_cons _ _ (List.cons_ne_nil _ _), ih, hb]
      rfl
    · have hlonger := congrArg (fun t : Text => (⟨b :: t.bytes⟩ : Text)) ih
      cases ps <;> exact hlonger

/-- The parts of texts that are joined are the parts of each of them. -/
theorem split_join {ts : List Text} (h : ts ≠ []) : (join ⟨[sep]⟩ ts).split sep = ts.flatMap (split sep) := by
  fun_induction join ⟨[sep]⟩ ts with
  | case1 => exact absurd rfl h
  | case2 t => simp
  | case3 t rest hrest ih => rw [split_append_sep, ih hrest, List.flatMap_cons]

/-- Texts without a separator are the parts of what they make up. -/
theorem split_join_of_not_mem {ts : List Text} (h : ts ≠ []) (hsep : ∀ t ∈ ts, sep ∉ t.bytes) :
    (join ⟨[sep]⟩ ts).split sep = ts := by
  fun_induction join ⟨[sep]⟩ ts with
  | case1 => exact absurd rfl h
  | case2 t => exact split_of_not_mem (hsep t List.mem_cons_self)
  | case3 t rest hrest ih =>
    obtain ⟨ht, hothers⟩ := List.forall_mem_cons.1 hsep
    rw [split_append_sep, ih hrest hothers, split_of_not_mem ht]
    rfl

end Split

/-! ## Lines -/

theorem unlines_append (ts us : List Text) : unlines (ts ++ us) = unlines ts ++ unlines us := by
  show (⟨_⟩ : Text) = ⟨_ ++ _⟩
  rw [List.map_append, List.flatMap_append]
  rfl

theorem concat_map_unlines (tss : List (List Text)) : concat (tss.map unlines) = unlines tss.flatten := by
  induction tss with
  | nil => rfl
  | cons ts rest ih =>
    rw [List.flatten_cons, unlines_append, ← ih]
    rfl

/-- Lines are read back from the text that they make up; behind the last line end nothing is left. -/
theorem lines_unlines_cons (t : Text) (ts : List Text) : (unlines (t :: ts)).lines = t.lines ++ (unlines ts).lines :=
  split_append_sep t (unlines ts)

theorem lines_unlines {ts : List Text} (h : ∀ t ∈ ts, 0x0A ∉ t.bytes) : (unlines ts).lines = ts ++ [empty] := by
  induction ts with
  | nil => rfl
  | cons t rest ih =>
    obtain ⟨ht, hrest⟩ := List.forall_mem_cons.1 h
    rw [lines_unlines_cons, lines, split_of_not_mem ht, ih hrest]
    rfl

/-! ## Words -/

/-- A word of characters in the ASCII range. -/
def IsWord (t : Text) : Prop := t ≠ "" ∧ ∀ b ∈ t.bytes, b.toNat < 128 ∧ isBlank (Char.ofNat b.toNat) = false

instance (t : Text) : Decidable t.IsWord :=
  haveI : Decidable (∀ b ∈ t.bytes, b.toNat < 128 ∧ isBlank (Char.ofNat b.toNat) = false) := List.decidableBAll _ _
  inferInstanceAs (Decidable (_ ∧ _))

theorem words_of_isWord {t : Text} (h : t.IsWord) : t.words = [t] := by
  obtain ⟨hne, hword⟩ := h
  have hpieces : t.pieces = t.bytes.map fun b => .char (Char.ofNat b.toNat) := by
    have hread := piecesOf_append_of_ascii (fun b hb => (hword b hb).1) []
    rwa [piecesOf, List.append_nil, List.append_nil] at hread
  have hblank : ∀ p ∈ t.pieces, p.isBlank = false := by
    rw [hpieces, List.forall_mem_map]
    exact fun b hb => (hword b hb).2
  have hsome : ¬ t.pieces.isEmpty := by
    rw [hpieces, List.isEmpty_map]
    exact fun hempty => hne (isEmpty_iff.1 hempty)
  rw [words, wordsOf_of_not_blank hblank, List.nil_append, if_neg hsome, List.map_singleton, ofPieces_pieces]

/-- Words are read back from the text that they make up with blanks between them. -/
theorem words_join {ts : List Text} (h : ∀ t ∈ ts, t.words = [t]) : (join " " ts).words = ts := by
  fun_induction join " " ts with
  | case1 => exact words_empty
  | case2 t => exact h t List.mem_cons_self
  | case3 t rest _ ih =>
    obtain ⟨ht, hrest⟩ := List.forall_mem_cons.1 h
    rw [words_append, ht, ih hrest]
    rfl

/-! ## Parts of a text -/

theorem bytes_of_dropBeginning? {p t r : Text} (h : dropBeginning? p t = some r) : t.bytes = p.bytes ++ r.bytes := by
  obtain ⟨bytes, hgo, rfl⟩ := Option.map_eq_some_iff.1 h
  revert hgo
  fun_induction dropBeginning?.go p.bytes t.bytes <;> intro hgo <;> simp_all

theorem dropBeginning?_append (p t : Text) : dropBeginning? p (p ++ t) = some t := by
  have hgo : ∀ front : List UInt8, dropBeginning?.go front (front ++ t.bytes) = some t.bytes := by
    intro front
    induction front with
    | nil => cases t.bytes <;> rfl
    | cons b front ih => simpa [dropBeginning?.go] using ih
  rw [dropBeginning?, bytes_append, hgo]
  rfl

theorem trimBeginning_append (p t : Text) : trimBeginning p (p ++ t) = t := by
  rw [trimBeginning, dropBeginning?_append]
  rfl

theorem trimEnding_append (t p : Text) : trimEnding p (t ++ p) = t := by
  have hdrop := dropBeginning?_append ⟨p.bytes.reverse⟩ ⟨t.bytes.reverse⟩
  have hreverse : (⟨(t ++ p).bytes.reverse⟩ : Text) = ⟨p.bytes.reverse⟩ ++ ⟨t.bytes.reverse⟩ :=
    congrArg Text.mk (List.reverse_append ..)
  rw [trimEnding, hreverse, hdrop]
  simp

theorem mem_join {sep : Text} {ts : List Text} {b : UInt8} (h : b ∈ (join sep ts).bytes) :
    b ∈ sep.bytes ∨ ∃ t ∈ ts, b ∈ t.bytes := by
  fun_induction join sep ts with
  | case1 => cases h
  | case2 t => exact .inr ⟨t, List.mem_cons_self, h⟩
  | case3 t rest _ ih =>
    rw [bytes_append, bytes_append, List.mem_append, List.mem_append] at h
    rcases h with (hfirst | hsep) | hrest
    · exact .inr ⟨t, List.mem_cons_self, hfirst⟩
    · exact .inl hsep
    · exact (ih hrest).imp_right fun ⟨w, hw, hb⟩ => ⟨w, List.mem_cons_of_mem _ hw, hb⟩

/-- Where one text stands in another, its bytes stand there in a row. -/
theorem infix_of_contains {t sub : Text} (h : t.contains sub) : sub.bytes <:+: t.bytes := by
  revert h
  rw [contains]
  generalize t.bytes = bytes
  induction bytes with
  | nil =>
    intro h
    have hempty : sub.bytes = [] := List.isEmpty_iff.1 h
    exact hempty ▸ List.nil_infix
  | cons b rest ih =>
    intro h
    rw [contains.go, Bool.or_eq_true] at h
    rcases h with hstart | hlater
    · obtain ⟨r, hdrop⟩ := Option.isSome_iff_exists.1 hstart
      exact ⟨[], r.bytes, (bytes_of_dropBeginning? hdrop).symm⟩
    · exact (ih hlater).trans (List.suffix_cons b rest).isInfix

theorem contains_of_infix {t sub : Text} (h : sub.bytes <:+: t.bytes) : t.contains sub := by
  revert h
  rw [contains]
  generalize t.bytes = bytes
  induction bytes with
  | nil =>
    intro h
    exact List.isEmpty_iff.2 (List.infix_nil.1 h)
  | cons b rest ih =>
    intro h
    rw [contains.go, Bool.or_eq_true]
    rcases List.infix_cons_iff.1 h with ⟨r, hr⟩ | hlater
    · have hdrop := dropBeginning?_append sub ⟨r⟩
      rw [show sub ++ ⟨r⟩ = ⟨b :: rest⟩ from congrArg mk hr] at hdrop
      exact .inl (by rw [startsWith, hdrop]; rfl)
    · exact .inr (ih hlater)

/-! ## Counts and widths

Counts of copies and widths of columns are signed words; as long as nothing wraps around they are counted with as numbers. -/

theorem toInt_max (a b : Int64) : (max a b).toInt = max a.toInt b.toInt := by
  rw [Int.max_def]
  show (if a ≤ b then b else a).toInt = _
  simp only [Int64.le_iff_toInt_le]
  split <;> rfl

theorem toInt_add_of_fits {a b : Int64} (hlo : -2 ^ 63 ≤ a.toInt + b.toInt) (hhi : a.toInt + b.toInt < 2 ^ 63) :
    (a + b).toInt = a.toInt + b.toInt := by
  rw [Int64.toInt_add]
  exact Int.bmod_eq_of_le (by omega) (by omega)

theorem toInt_sub_of_fits {a b : Int64} (hlo : -2 ^ 63 ≤ a.toInt - b.toInt) (hhi : a.toInt - b.toInt < 2 ^ 63) :
    (a - b).toInt = a.toInt - b.toInt := by
  rw [Int64.toInt_sub]
  exact Int.bmod_eq_of_le (by omega) (by omega)

theorem countFault?_eq_none {n : Int64} (hlo : 0 ≤ n.toInt) (hhi : n.toInt ≤ largestSize.toInt) : countFault? n = none := by
  have hneg : ¬ n < 0 := by
    rw [Int64.lt_iff_toInt_lt]
    exact Int.not_lt.2 hlo
  have hlarge : ¬ largestSize < n := by
    rw [Int64.lt_iff_toInt_lt]
    exact Int.not_lt.2 hhi
  rw [countFault?, if_neg hneg, if_neg hlarge]

/-- Copies of a character. -/
theorem replicate_ofChars (n : Nat) (c : Char) : replicate n (ofChars [c]) = ofChars (List.replicate n c) := by
  have hbytes : (ofChars [c]).bytes = String.utf8EncodeChar c := List.append_nil _
  rw [replicate, hbytes, ofChars, List.flatMap_replicate]

theorem mem_replicate {n : Nat} {t : Text} {b : UInt8} (h : b ∈ (replicate n t).bytes) : b ∈ t.bytes := by
  obtain ⟨bs, hbs, hb⟩ := List.mem_flatten.1 h
  rwa [List.eq_of_mem_replicate hbs] at hb

theorem IsAscii.replicate {t : Text} (h : t.IsAscii) (n : Nat) : (Text.replicate n t).IsAscii :=
  fun b hb => h b (mem_replicate hb)

theorem size_replicate (n : Nat) (t : Text) : (replicate n t).size = n * t.size := by
  rw [replicate, size, List.length_flatten, List.map_replicate, List.sum_replicate_nat]
  rfl

/-- Spaces in front of a text. -/
theorem width_replicate_append (n : Nat) (t : Text) : (replicate n " " ++ t).width = n + t.width := by
  have hascii : IsAscii " " := by decide
  rw [(hascii.replicate n).width_append, size_replicate]
  exact congrArg (· + t.width) (Nat.mul_one n)

/-- Spaces behind a text. -/
theorem width_append_replicate (t : Text) (n : Nat) : (t ++ replicate n " ").width = t.width + n := by
  cases n with
  | zero => rw [show replicate 0 " " = "" from rfl, append_empty]; rfl
  | succ n =>
    have hspaces := width_replicate_append n ""
    rw [append_empty, width_empty] at hspaces
    have hsplit : t ++ replicate (n + 1) " " = t ++ " " ++ replicate n " " := (append_assoc t " " (replicate n " ")).symm
    have hwidth : (t ++ " " ++ replicate n " ").width = t.width + 1 + (replicate n " ").width :=
      width_append (by decide) (by decide) t (replicate n " ")
    rw [hsplit, hwidth, hspaces]
    omega

theorem width_padRight (n : Nat) (t : Text) : (t.padRight n).width = max n t.width := by
  rw [padRight, width_append_replicate]
  omega

/-- A line is no wider than the text that it stands in. -/
theorem width_le_of_mem_lines {t l : Text} (h : l ∈ t.lines) : l.width ≤ t.width := by
  have hjoin : ∀ ts : List Text, l ∈ ts → l.width ≤ (join ⟨[10]⟩ ts).width := by
    intro ts
    fun_induction join ⟨[10]⟩ ts with
    | case1 => exact nofun
    | case2 t =>
      intro hl
      rw [List.mem_singleton.1 hl]
    | case3 t rest _ ih =>
      intro hl
      rw [width_append (by decide) (by decide)]
      rcases List.mem_cons.1 hl with rfl | hrest
      · omega
      · have := ih hrest
        omega
  exact (hjoin t.lines h).trans (by rw [lines, join_split])

theorem mem_lines_unlines {ts : List Text} {l : Text} (h : l ∈ (unlines ts).lines) : l = "" ∨ ∃ t ∈ ts, l ∈ t.lines := by
  induction ts with
  | nil => exact .inl (List.mem_singleton.1 h)
  | cons t rest ih =>
    rw [lines_unlines_cons, List.mem_append] at h
    rcases h with hfirst | hrest
    · exact .inr ⟨t, List.mem_cons_self, hfirst⟩
    · exact (ih hrest).imp_right fun ⟨u, hu, hl⟩ => ⟨u, List.mem_cons_of_mem t hu, hl⟩

end AlgolMips.Text
