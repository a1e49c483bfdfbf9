import AlgolMips.Golden.Json.Read
import AlgolMips.Proofs.Folding
import AlgolMips.Proofs.Texts
import Mathlib.Data.List.DropRight

/-!
# Written JSON is read back

A tree whose texts are well-formed UTF-8 and whose numbers are integers is written so that reading gives the tree again
(`Json.read_render`). Strings are the part with a choice: each character is written as itself, behind a backslash or by
its number, and each of these forms is read as the bytes of the character (`Json.readAs_escapedChar`). Everything
else is read by what stands in front of it and behind it, so a value is read back in front of a comma, a line end or
nothing (`JsonTree.ReadsBack`).
-/

namespace AlgolMips

/-- A text is well-formed UTF-8. -/
def Text.IsUtf8 (t : Text) : Prop := Text.ofChars t.chars = t

instance (t : Text) : Decidable t.IsUtf8 := inferInstanceAs (Decidable (_ = _))

theorem Text.isUtf8_ofString (s : String) : (Text.ofString s).IsUtf8 := by
  rw [IsUtf8, ← String.ofList_toList (s := s), ofString_ofList, chars_ofChars]

namespace Golden.Json

open Text (ofChars hexDigit hexDigits)

/-! ## Strings -/

/-- Whether a byte of a string stands for itself. -/
def StandsForItself (b : UInt8) : Prop := b ≠ 0x22 ∧ b ≠ 0x5C ∧ 0x20 ≤ b.toNat

section Units

variable {b c e : UInt8} {rest behind : List UInt8}

theorem stringUnits_byte (h : StandsForItself b) (rest : List UInt8) :
    stringUnits (b :: rest) = (stringUnits rest).map fun (us, r) => (.byte b :: us, r) := by
  obtain ⟨hquote, hslash, hlarge⟩ := h
  have hcontrol : ¬ b < 0x20 := by
    rw [UInt8.lt_iff_toNat_lt]
    exact Nat.not_lt.2 hlarge
  rw [stringUnits.eq_def]
  simp only [hquote, hslash, hcontrol, if_false]

theorem stringUnits_letter (he : e ≠ 0x75) (h : escape? e = some c) (rest : List UInt8) :
    stringUnits (0x5C :: e :: rest) = (stringUnits rest).map fun (us, r) => (.byte c :: us, r) := by
  rw [stringUnits, if_neg (by decide), if_pos rfl]
  simp only [he, if_false, h]

theorem stringUnits_number {n : Nat} (h : escapedNumber rest = .ok (n, behind)) :
    stringUnits (0x5C :: 0x75 :: rest) = (stringUnits behind).map fun (us, r) => (.code n :: us, r) := by
  rw [stringUnits, if_neg (by decide), if_pos rfl]
  simp only [if_true]
  split
  · next err herr => rw [h] at herr; cases herr
  · next m r hr => rw [h] at hr; cases hr; rfl

theorem stringUnits_bytes {bs : List UInt8} (h : ∀ b ∈ bs, StandsForItself b) (rest : List UInt8) :
    stringUnits (bs ++ rest) = (stringUnits rest).map fun (us, r) => (bs.map .byte ++ us, r) := by
  induction bs with
  | nil => cases hunits : stringUnits rest <;> simp [hunits, Except.map]
  | cons b bs ih =>
    obtain ⟨hb, hbs⟩ := List.forall_mem_cons.1 h
    rw [List.cons_append, stringUnits_byte hb, ih hbs]
    cases stringUnits rest <;> rfl

end Units

theorem unitBytes_bytes (bs : List UInt8) (us : List StringUnit) :
    unitBytes (bs.map .byte ++ us) = bs ++ unitBytes us := by
  induction bs with
  | nil => rfl
  | cons b bs ih => rw [List.map_cons, List.cons_append, unitBytes_byte, ih, List.cons_append]

theorem codeBytes_toNat (c : Char) : codeBytes c.toNat = String.utf8EncodeChar c := by
  rw [codeBytes, if_pos (show c.toNat.isValidChar from c.valid), Char.ofNat_toNat]

/-- The number of a character is no half of a pair. -/
theorem unitBytes_code (c : Char) (us : List StringUnit) :
    unitBytes (.code c.toNat :: us) = String.utf8EncodeChar c ++ unitBytes us := by
  have hvalid : c.toNat < 0xD800 ∨ 0xDFFF < c.toNat ∧ c.toNat < 0x110000 := c.valid
  cases us with
  | nil => simp [unitBytes, codeBytes_toNat]
  | cons u us =>
    cases u with
    | byte b => simp [unitBytes, codeBytes_toNat]
    | code lo => rw [unitBytes, if_neg (by omega), codeBytes_toNat]

/-- The digits of a number are read as the number. -/
theorem escapedNumber_hexDigits {n : Nat} (h : n < 0x10000) (rest : List UInt8) :
    escapedNumber ((hexDigits 4 n).flatMap String.utf8EncodeChar ++ rest) = .ok (n, rest) := by
  have hdigit : ∀ d < 16, (String.utf8EncodeChar (hexDigit d)).map hexValue? = [some d] := by decide
  have hbyte : ∀ d, d < 16 → ∃ b, String.utf8EncodeChar (hexDigit d) = [b] ∧ hexValue? b = some d := by
    intro d hd
    obtain ⟨b, hb, hvalue⟩ := List.map_eq_singleton_iff.1 (hdigit d hd)
    exact ⟨b, hb, hvalue⟩
  obtain ⟨b₃, hb₃, hv₃⟩ := hbyte (n / 16 / 16 / 16 % 16) (Nat.mod_lt _ (by decide))
  obtain ⟨b₂, hb₂, hv₂⟩ := hbyte (n / 16 / 16 % 16) (Nat.mod_lt _ (by decide))
  obtain ⟨b₁, hb₁, hv₁⟩ := hbyte (n / 16 % 16) (Nat.mod_lt _ (by decide))
  obtain ⟨b₀, hb₀, hv₀⟩ := hbyte (n % 16) (Nat.mod_lt _ (by decide))
  have hbytes : (hexDigits 4 n).flatMap String.utf8EncodeChar = [b₃, b₂, b₁, b₀] := by
    simp [hexDigits, hb₃, hb₂, hb₁, hb₀]
  simp only [escapedNumber, hbytes]
  simp [hv₃, hv₂, hv₁, hv₀]
  omega

/-- What stands in a string for a character is read as its bytes. -/
def ReadAs (bs : List UInt8) (c : Char) : Prop :=
  ∃ us, (∀ more, unitBytes (us ++ more) = String.utf8EncodeChar c ++ unitBytes more) ∧
    ∀ rest, stringUnits (bs ++ rest) = (stringUnits rest).map fun (us', r) => (us ++ us', r)

theorem readAs_bytes {bs : List UInt8} {c : Char} (h : ∀ b ∈ bs, StandsForItself b)
    (hc : String.utf8EncodeChar c = bs) : ReadAs bs c :=
  ⟨bs.map .byte, fun more => hc ▸ unitBytes_bytes bs more, stringUnits_bytes h⟩

theorem readAs_letter {e b : UInt8} {c : Char} (he : e ≠ 0x75) (h : escape? e = some b)
    (hc : String.utf8EncodeChar c = [b]) : ReadAs [0x5C, e] c :=
  ⟨[.byte b], fun more => hc ▸ unitBytes_bytes [b] more, stringUnits_letter he h⟩

theorem readAs_number {c : Char} (h : c.toNat < 0x10000) :
    ReadAs (0x5C :: 0x75 :: (hexDigits 4 c.toNat).flatMap String.utf8EncodeChar) c :=
  ⟨[.code c.toNat], unitBytes_code c, fun rest => stringUnits_number (escapedNumber_hexDigits h rest)⟩

/-- A character without a meaning of its own is made of bytes that stand for themselves. -/
theorem standsForItself_of_mem {c : Char} (hquote : c ≠ '"') (hslash : c ≠ '\\') (hlarge : 0x20 ≤ c.toNat) {b : UInt8}
    (h : b ∈ String.utf8EncodeChar c) : StandsForItself b := by
  by_cases hsize : c.utf8Size = 1
  · have hsmall : c.toNat ≤ 127 := UInt32.le_iff_toNat_le.1 (Char.utf8Size_eq_one_iff.1 hsize)
    rw [String.utf8EncodeChar_eq_singleton hsize, List.mem_singleton] at h
    have hb : b.toNat = c.toNat := by
      rw [h, UInt32.toNat_toUInt8]
      exact Nat.mod_eq_of_lt (Nat.lt_of_le_of_lt hsmall (by decide))
    refine ⟨fun heq => hquote (Char.toNat_inj.1 ?_), fun heq => hslash (Char.toNat_inj.1 ?_), hb ▸ hlarge⟩
    · rw [← hb, heq]; rfl
    · rw [← hb, heq]; rfl
  · have hbeyond := Text.le_toNat_of_mem_utf8EncodeChar hsize h
    refine ⟨?_, ?_, by omega⟩
    · rintro rfl; revert hbeyond; decide
    · rintro rfl; revert hbeyond; decide

/-- However a character is written, it is read as its bytes. -/
theorem readAs_escapedChar (c : Char) : ReadAs ((escapedChar c).flatMap String.utf8EncodeChar) c := by
  unfold escapedChar
  split
  · next h =>
    rcases h with rfl | rfl
    · exact readAs_letter (b := 0x22) (by decide) (by decide) (by decide)
    · exact readAs_letter (b := 0x5C) (by decide) (by decide) (by decide)
  · next hplain =>
    rw [not_or] at hplain
    split
    · next l hl =>
      have hcases : (c = '\x08' ∧ l = 'b') ∨ (c = '\t' ∧ l = 't') ∨ (c = '\n' ∧ l = 'n') ∨ (c = '\x0c' ∧ l = 'f') ∨
          (c = '\r' ∧ l = 'r') := by
        obtain ⟨l₁, l₂, heq, -⟩ := List.lookup_eq_some_iff.1 hl
        have hmem : (c.toNat, l) ∈ l₁ ++ (c.toNat, l) :: l₂ := by simp
        rw [← heq] at hmem
        simpa [← Char.toNat_inj] using hmem
      rcases hcases with ⟨rfl, rfl⟩ | ⟨rfl, rfl⟩ | ⟨rfl, rfl⟩ | ⟨rfl, rfl⟩ | ⟨rfl, rfl⟩
      · exact readAs_letter (b := 0x08) (by decide) (by decide) (by decide)
      · exact readAs_letter (b := 0x09) (by decide) (by decide) (by decide)
      · exact readAs_letter (b := 0x0A) (by decide) (by decide) (by decide)
      · exact readAs_letter (b := 0x0C) (by decide) (by decide) (by decide)
      · exact readAs_letter (b := 0x0D) (by decide) (by decide) (by decide)
    · split
      · next hcoded =>
        have hshort : c.toNat < 0x10000 := by
          rcases hcoded with h | rfl | rfl | rfl | h | h
          · omega
          · decide
          · decide
          · decide
          · omega
          · omega
        exact readAs_number hshort
      · next hself =>
        refine readAs_bytes (fun b hb => ?_) (by simp)
        refine standsForItself_of_mem hplain.1 hplain.2 ?_ (by simpa using hb)
        exact Nat.not_lt.1 fun h => hself (.inl h)

/-- Behind its opening quote a written text is read as the text. -/
theorem readString_quoted {t : Text} (ht : t.IsUtf8) (rest : List UInt8) :
    ∃ body, (quoted t).bytes = 0x22 :: body ∧ readString (body ++ rest) = .ok (t, rest) := by
  have hunits : ∀ cs : List Char, ∃ us, unitBytes us = cs.flatMap String.utf8EncodeChar ∧
      stringUnits ((cs.flatMap escapedChar).flatMap String.utf8EncodeChar ++ 0x22 :: rest) = .ok (us, rest) := by
    intro cs
    induction cs with
    | nil => exact ⟨[], rfl, stringUnits_quote rest⟩
    | cons c cs ih =>
      obtain ⟨us, hbytes, hread⟩ := ih
      obtain ⟨first, hfirst, hstring⟩ := readAs_escapedChar c
      refine ⟨first ++ us, by rw [hfirst, hbytes, List.flatMap_cons], ?_⟩
      rw [List.flatMap_cons, List.flatMap_append, List.append_assoc, hstring, hread]
      rfl
  obtain ⟨us, hbytes, hread⟩ := hunits t.chars
  have hquote : String.utf8EncodeChar '"' = [0x22] := rfl
  refine ⟨(t.chars.flatMap escapedChar).flatMap String.utf8EncodeChar ++ [0x22], ?_, ?_⟩
  · simp [quoted, ofChars, hquote]
  · rw [List.append_assoc, List.singleton_append, readString, hread]
    have hchars : (⟨unitBytes us⟩ : Text) = ofChars t.chars := congrArg Text.mk hbytes
    show Except.ok (ofChars (Text.chars ⟨unitBytes us⟩), rest) = _
    rw [hchars, Text.chars_ofChars, show ofChars t.chars = t from ht]

/-! ## Numbers -/

/-- What may stand behind a value: a comma, a line end or nothing. -/
def Ends (rest : List UInt8) : Prop := ∀ b ∈ rest.head?, b = 0x2C ∨ b = 0x0A

section Numbers

variable {rest : List UInt8}

theorem readDigits_append {ds : List UInt8} (hne : ds ≠ []) (hds : ∀ b ∈ ds, Text.isDigit b) (hrest : Ends rest) :
    readDigits (ds ++ rest) = .ok (ds, rest) := by
  obtain ⟨b, ds', rfl⟩ := List.exists_cons_of_ne_nil hne
  have hspan : ((b :: ds') ++ rest).span Text.isDigit = (b :: ds', rest) := by
    rw [List.span_eq_takeWhile_dropWhile, List.takeWhile_append_of_pos hds, List.dropWhile_append_of_pos hds]
    cases rest with
    | nil => simp
    | cons c rest =>
      have hc : Text.isDigit c = false := by
        rcases hrest c rfl with rfl | rfl <;> decide
      simp [hc]
  rw [readDigits, hspan, if_pos]
  simpa using hds b List.mem_cons_self

theorem readWhole_ofNat (n : Nat) (hrest : Ends rest) :
    readWhole ((Text.ofNat n).bytes ++ rest) = .ok ((Text.ofNat n).bytes, rest) := by
  obtain ⟨b, ds, hbytes, hzero⟩ := Text.ofNat_eq_cons n
  by_cases hb : b = 0x30
  · have hn := hzero hb
    subst hn
    rfl
  · have hdigits := readDigits_append (hbytes ▸ List.cons_ne_nil b ds) (fun _ => Text.isDigit_of_mem_ofNat) hrest
    rw [← hdigits]
    unfold readWhole
    split
    · next r heq =>
      rw [hbytes] at heq
      cases heq
      exact absurd rfl hb
    · rfl

theorem readFraction_ends (hrest : Ends rest) : readFraction rest = .ok ([], rest) := by
  unfold readFraction
  split
  · exact absurd (hrest _ rfl) (by decide)
  · rfl

theorem readExponent_ends (hrest : Ends rest) : readExponent rest = .ok ([], rest) := by
  cases rest with
  | nil => rfl
  | cons b rest => rcases hrest b rfl with rfl | rfl <;> rfl

theorem readNumber_of_readMinus {bs sign : List UInt8} {n : Nat}
    (h : readMinus bs = (sign, (Text.ofNat n).bytes ++ rest)) (hrest : Ends rest) :
    readNumber bs = .ok (.number ⟨sign ++ (Text.ofNat n).bytes⟩, rest) := by
  simp [readNumber, h, readWhole_ofNat n hrest, readFraction_ends hrest, readExponent_ends hrest, bind, Except.bind, pure,
    Except.pure]

/-- An integer is read as it is written. -/
theorem readNumber_ofInt (n : Int) (hrest : Ends rest) :
    readNumber ((Text.ofInt n).bytes ++ rest) = .ok (.number (Text.ofInt n), rest) := by
  cases n with
  | ofNat m =>
    obtain ⟨b, ds, hbytes, -⟩ := Text.ofNat_eq_cons m
    have hdigit := Text.isDigit_of_mem_ofNat (hbytes ▸ List.mem_cons_self : b ∈ (Text.ofNat m).bytes)
    have hminus : readMinus ((Text.ofNat m).bytes ++ rest) = ([], (Text.ofNat m).bytes ++ rest) := by
      unfold readMinus
      split
      · next r heq =>
        rw [hbytes] at heq
        cases heq
        exact absurd hdigit (by decide)
      · rfl
    exact readNumber_of_readMinus hminus hrest
  | negSucc m =>
    have hminus : readMinus ((Text.ofInt (.negSucc m)).bytes ++ rest) = ([0x2D], (Text.ofNat (m + 1)).bytes ++ rest) := by
      rw [Text.bytes_ofInt_negSucc]
      rfl
    rw [readNumber_of_readMinus hminus hrest, List.singleton_append, ← Text.bytes_ofInt_negSucc]

/-- An integer begins with a digit or a sign. -/
theorem ofInt_eq_cons (n : Int) : ∃ b ds, (Text.ofInt n).bytes = b :: ds ∧ (b = 0x2D ∨ Text.isDigit b) := by
  cases n with
  | ofNat m =>
    obtain ⟨b, ds, hbytes, -⟩ := Text.ofNat_eq_cons m
    exact ⟨b, ds, hbytes, .inr (Text.isDigit_of_mem_ofNat (hbytes ▸ List.mem_cons_self))⟩
  | negSucc m => exact ⟨0x2D, _, Text.bytes_ofInt_negSucc m, .inl rfl⟩

end Numbers

/-! ## Blanks -/

section Blanks

variable {fuel room : Nat} {bs bs' blanks : List UInt8}

theorem skipBlank_append (h : ∀ b ∈ blanks, isBlank b) (bs : List UInt8) : skipBlank (blanks ++ bs) = skipBlank bs :=
  List.dropWhile_append_of_pos h

@[simp] theorem skipBlank_skipBlank (bs : List UInt8) : skipBlank (skipBlank bs) = skipBlank bs :=
  List.dropWhile_idempotent isBlank bs

theorem isBlank_of_mem_indent {level : Nat} {b : UInt8} (h : b ∈ (indent level).bytes) : isBlank b := by
  obtain ⟨bs, hbs, hb⟩ := List.mem_flatten.1 h
  rw [(List.mem_replicate.1 hbs).2] at hb
  rw [List.mem_singleton.1 (show b ∈ [0x20] from hb)]
  decide

/-- Reading a value starts behind the blanks. -/
theorem readValue_congr (h : skipBlank bs = skipBlank bs') : readValue fuel room bs = readValue fuel room bs' := by
  cases fuel with
  | zero => simp
  | succ fuel => rw [readValue, readValue, h]

theorem readItems_congr (h : skipBlank bs = skipBlank bs') : readItems fuel room bs = readItems fuel room bs' := by
  cases fuel with
  | zero => simp
  | succ fuel => rw [readItems, readItems, readValue_congr h]

theorem readMembers_congr (h : skipBlank bs = skipBlank bs') : readMembers fuel room bs = readMembers fuel room bs' := by
  cases fuel with
  | zero => simp
  | succ fuel => rw [readMembers, readMembers, h]

/-- No item begins with a closing bracket. -/
theorem readItems_closed {r : List UInt8} (h : skipBlank bs = 0x5D :: r) : ∃ e, readItems fuel room bs = .error e := by
  cases fuel with
  | zero => exact ⟨_, readItems_zero room bs⟩
  | succ fuel =>
    have hvalue : ∃ e, readValue fuel room bs = .error e := by
      cases fuel with
      | zero => exact ⟨_, readValue_zero room bs⟩
      | succ fuel => exact ⟨misplaced .value (0x5D :: r), by rw [readValue, h]; rfl⟩
    obtain ⟨e, he⟩ := hvalue
    exact ⟨e, by rw [readItems, he]; rfl⟩

/-- No member begins with a closing brace. -/
theorem readMembers_closed {r : List UInt8} (h : skipBlank bs = 0x7D :: r) :
    ∃ e, readMembers fuel room bs = .error e := by
  cases fuel with
  | zero => exact ⟨_, readMembers_zero room bs⟩
  | succ fuel => exact ⟨misplaced .key (0x7D :: r), by rw [readMembers, h]; rfl⟩

theorem readValue_array {items : JsonTree .items} {rest : List UInt8} (h : readItems fuel room bs = .ok (items, rest)) :
    readValue (fuel + 1) (room + 1) (0x5B :: bs) = .ok (.array items, rest) := by
  have hskip : skipBlank (0x5B :: bs) = 0x5B :: bs := rfl
  rw [readValue, hskip]
  simp only [show (0x5B : UInt8) ≠ 0x22 by decide, show (0x5B : UInt8) ≠ 0x7B by decide, if_false, if_true]
  split
  · next r hr =>
    obtain ⟨e, he⟩ : ∃ e, readItems fuel room bs = .error e := readItems_closed hr
    rw [h] at he
    cases he
  · rw [readItems_congr (skipBlank_skipBlank bs), h]
    rfl

theorem readValue_object {members : JsonTree .members} {rest : List UInt8}
    (h : readMembers fuel room bs = .ok (members, rest)) :
    readValue (fuel + 1) (room + 1) (0x7B :: bs) = .ok (.object members, rest) := by
  have hskip : skipBlank (0x7B :: bs) = 0x7B :: bs := rfl
  rw [readValue, hskip]
  simp only [show (0x7B : UInt8) ≠ 0x22 by decide, if_false, if_true]
  split
  · next r hr =>
    obtain ⟨e, he⟩ : ∃ e, readMembers fuel room bs = .error e := readMembers_closed hr
    rw [h] at he
    cases he
  · rw [readMembers_congr (skipBlank_skipBlank bs), h]
    rfl

section Lists

variable {r rest body behind : List UInt8} {j : Json} {key : Text}

theorem readItems_last (hj : readValue fuel room bs = .ok (j, r)) (hr : skipBlank r = 0x5D :: rest) :
    readItems (fuel + 1) room bs = .ok (.item j .noItems, rest) := by
  rw [readItems, hj]
  simp only [bind, Except.bind, hr]
  rfl

theorem readItems_more {items : JsonTree .items} (hj : readValue fuel room bs = .ok (j, 0x2C :: r))
    (hr : readItems fuel room r = .ok (items, rest)) : readItems (fuel + 1) room bs = .ok (.item j items, rest) := by
  have hskip : skipBlank (0x2C :: r) = 0x2C :: r := rfl
  rw [readItems, hj]
  simp only [bind, Except.bind, hskip, hr]
  rfl

theorem readMembers_last (hbs : skipBlank bs = 0x22 :: body) (hkey : readString body = .ok (key, 0x3A :: behind))
    (hj : readValue fuel room behind = .ok (j, r)) (hr : skipBlank r = 0x7D :: rest) :
    readMembers (fuel + 1) room bs = .ok (.member key j .noMembers, rest) := by
  have hcolon : skipBlank (0x3A :: behind) = 0x3A :: behind := rfl
  rw [readMembers, hbs]
  simp only [bind, Except.bind, hkey, hcolon, hj, hr]
  rfl

theorem readMembers_more {members : JsonTree .members} (hbs : skipBlank bs = 0x22 :: body)
    (hkey : readString body = .ok (key, 0x3A :: behind)) (hj : readValue fuel room behind = .ok (j, 0x2C :: r))
    (hr : readMembers fuel room r = .ok (members, rest)) :
    readMembers (fuel + 1) room bs = .ok (.member key j members, rest) := by
  have hcolon : skipBlank (0x3A :: behind) = 0x3A :: behind := rfl
  have hcomma : skipBlank (0x2C :: r) = 0x2C :: r := rfl
  rw [readMembers, hbs]
  simp only [bind, Except.bind, hkey, hcolon, hj, hcomma, hr]
  rfl

end Lists

end Blanks

/-! ## Trees -/

end Golden.Json

namespace Golden

open Json

namespace JsonTree

/-- A tree is made of well-formed texts and integers. -/
def Plain : {p : JsonPart} → JsonTree p → Prop
  | _, .null | _, .bool _ | _, .noItems | _, .noMembers => True
  | _, .number l => ∃ n, l = Text.ofInt n
  | _, .string t => t.IsUtf8
  | _, .array items => items.Plain
  | _, .object members => members.Plain
  | _, .item j tail => j.Plain ∧ tail.Plain
  | _, .member k j tail => k.IsUtf8 ∧ j.Plain ∧ tail.Plain

/-- How many arrays and objects stand in one another. -/
def depth : {p : JsonPart} → JsonTree p → Nat
  | _, .null | _, .bool _ | _, .number _ | _, .string _ | _, .noItems | _, .noMembers => 0
  | _, .array items => items.depth + 1
  | _, .object members => members.depth + 1
  | _, .item j tail => max j.depth tail.depth
  | _, .member _ j tail => max j.depth tail.depth

/-- The number of calls that reading a tree takes in a row. -/
def calls : {p : JsonPart} → JsonTree p → Nat
  | _, .null | _, .bool _ | _, .number _ | _, .string _ => 1
  | _, .noItems | _, .noMembers => 0
  | _, .array items => items.calls + 1
  | _, .object members => members.calls + 1
  | _, .item j tail => j.calls + tail.calls + 1
  | _, .member _ j tail => j.calls + tail.calls + 1

section Render

variable {level : Nat} {items : JsonTree .items} {members : JsonTree .members}

theorem render_array (h : items ≠ .noItems) : (JsonTree.array items).render level =
    "[\n" ++ items.render (level + 1) ++ "\n" ++ Json.indent level ++ "]" := by
  cases items with
  | noItems => exact absurd rfl h
  | item j tail => rfl

theorem render_object (h : members ≠ .noMembers) : (JsonTree.object members).render level =
    "\x7b\n" ++ members.render (level + 1) ++ "\n" ++ Json.indent level ++ "\x7d" := by
  cases members with
  | noMembers => exact absurd rfl h
  | member k j tail => rfl

theorem render_item (j : Json) (h : items ≠ .noItems) : (JsonTree.item j items).render level =
    Json.indent level ++ j.render level ++ ",\n" ++ items.render level := by
  cases items with
  | noItems => exact absurd rfl h
  | item j' tail => rfl

theorem render_member (k : Text) (j : Json) (h : members ≠ .noMembers) : (JsonTree.member k j members).render level =
    Json.indent level ++ Json.quoted k ++ ": " ++ j.render level ++ ",\n" ++ members.render level := by
  cases members with
  | noMembers => exact absurd rfl h
  | member k' j' tail => rfl

end Render

/-- A tree has a byte for every two calls. -/
theorem calls_le_size {p : JsonPart} (j : JsonTree p) (level : Nat) :
    j.calls ≤ 2 * (j.render level).size + (if p = .value then 1 else 2) := by
  induction j generalizing level with
  | null | bool _ | number _ | string _ => simp [calls]
  | noItems | noMembers => simp [calls]
  | array items ih =>
    by_cases h : items = .noItems
    · simp [h, calls]
    · have hinside := ih (level + 1)
      have hend : (Text.ofString "\n").size = 1 := rfl
      rw [render_array h]
      simp [calls] at hinside ⊢
      omega
  | object members ih =>
    by_cases h : members = .noMembers
    · simp [h, calls]
    · have hinside := ih (level + 1)
      have hend : (Text.ofString "\n").size = 1 := rfl
      rw [render_object h]
      simp [calls] at hinside ⊢
      omega
  | item j tail ihj iht =>
    have hhead := ihj level
    have htail := iht level
    by_cases h : tail = .noItems
    · simp [h, calls, render] at hhead ⊢
      omega
    · rw [render_item j h]
      have hcomma : (Text.ofString ",\n").size = 2 := rfl
      simp [calls] at hhead htail ⊢
      omega
  | member k j tail ihj iht =>
    have hhead := ihj level
    have htail := iht level
    by_cases h : tail = .noMembers
    · simp [h, calls, render] at hhead ⊢
      omega
    · rw [render_member k j h]
      have hcomma : (Text.ofString ",\n").size = 2 := rfl
      simp [calls] at hhead htail ⊢
      omega

/-- A tree is read back from what is written for it. The inside of an array or an object is read with its closing bracket,
and is not empty. -/
def ReadsBack : {p : JsonPart} → JsonTree p → Prop
  | .value, j => ∀ fuel room level blanks rest, j.calls ≤ fuel → j.depth ≤ room → (∀ b ∈ blanks, isBlank b) → Ends rest →
      readValue fuel room (blanks ++ ((j.render level).bytes ++ rest)) = .ok (j, rest)
  | .items, js => js ≠ .noItems → ∀ fuel room level blanks space rest, js.calls ≤ fuel → js.depth ≤ room →
      (∀ b ∈ blanks, isBlank b) → (∀ b ∈ space, isBlank b) →
      readItems fuel room (blanks ++ ((js.render level).bytes ++ (0x0A :: space ++ 0x5D :: rest))) = .ok (js, rest)
  | .members, ms => ms ≠ .noMembers → ∀ fuel room level blanks space rest, ms.calls ≤ fuel → ms.depth ≤ room →
      (∀ b ∈ blanks, isBlank b) → (∀ b ∈ space, isBlank b) →
      readMembers fuel room (blanks ++ ((ms.render level).bytes ++ (0x0A :: space ++ 0x7D :: rest))) = .ok (ms, rest)

/-- The first call skips what is blank. -/
theorem readsBack_of_calls_eq {j : Json} {n : Nat} (hcalls : j.calls = n + 1)
    (hread : ∀ fuel room level rest, n ≤ fuel → j.depth ≤ room → Ends rest →
      readValue (fuel + 1) room ((j.render level).bytes ++ rest) = .ok (j, rest)) : j.ReadsBack := by
  intro fuel room level blanks rest hfuel hroom hblanks hrest
  rw [hcalls] at hfuel
  obtain ⟨fuel, rfl⟩ := Nat.exists_eq_add_of_le' (Nat.le_trans (Nat.le_add_left 1 n) hfuel)
  rw [readValue_congr (skipBlank_append hblanks _)]
  exact hread fuel room level rest (Nat.le_of_succ_le_succ hfuel) hroom hrest

theorem readsBack_null : JsonTree.null.ReadsBack :=
  readsBack_of_calls_eq rfl fun _ _ _ _ _ _ _ => by rw [readValue]; rfl

theorem readsBack_bool (b : Bool) : (JsonTree.bool b).ReadsBack := by
  cases b
  · exact readsBack_of_calls_eq rfl fun _ _ _ _ _ _ _ => by rw [readValue]; rfl
  · exact readsBack_of_calls_eq rfl fun _ _ _ _ _ _ _ => by rw [readValue]; rfl

theorem readsBack_number (n : Int) : (JsonTree.number (Text.ofInt n)).ReadsBack := by
  refine readsBack_of_calls_eq rfl fun fuel room level rest _ _ hrest => ?_
  obtain ⟨b, ds, hbytes, hb⟩ := ofInt_eq_cons n
  have hother : ∀ c, c ≠ 0x2D → ¬ Text.isDigit c → b ≠ c := by
    rintro c hsign hdigit rfl
    exact hb.elim hsign hdigit
  have hblank : ¬ isBlank b := by
    simp only [isBlank, Bool.or_eq_true, beq_iff_eq, not_or]
    exact ⟨⟨⟨hother _ (by decide) (by decide), hother _ (by decide) (by decide)⟩, hother _ (by decide) (by decide)⟩,
      hother _ (by decide) (by decide)⟩
  have hskip : skipBlank (b :: (ds ++ rest)) = b :: (ds ++ rest) := List.dropWhile_cons_of_neg hblank
  have hnumber := readNumber_ofInt n hrest
  rw [hbytes, List.cons_append] at hnumber
  rw [render, hbytes, List.cons_append, readValue, hskip]
  simp only [hother 0x22 (by decide) (by decide), hother 0x7B (by decide) (by decide),
    hother 0x5B (by decide) (by decide), hother 0x74 (by decide) (by decide), hother 0x66 (by decide) (by decide),
    hother 0x6E (by decide) (by decide), if_false, hb, if_true, hnumber]

theorem readsBack_string {t : Text} (ht : t.IsUtf8) : (JsonTree.string t).ReadsBack := by
  refine readsBack_of_calls_eq rfl fun fuel room level rest _ _ _ => ?_
  obtain ⟨body, hbytes, hread⟩ := readString_quoted ht rest
  have hskip : skipBlank (0x22 :: (body ++ rest)) = 0x22 :: (body ++ rest) := rfl
  rw [render, hbytes, List.cons_append, readValue, hskip]
  simp only [if_true, hread]
  rfl

theorem readsBack_array {items : JsonTree .items} (h : items.ReadsBack) : (JsonTree.array items).ReadsBack := by
  refine readsBack_of_calls_eq rfl fun fuel room level rest hfuel hroom _ => ?_
  obtain ⟨room, rfl⟩ := Nat.exists_eq_add_of_le' (Nat.le_trans (Nat.le_add_left 1 _) hroom)
  by_cases hnone : items = .noItems
  · subst hnone
    rw [readValue]
    rfl
  · have hinside := h hnone fuel room (level + 1) [0x0A] (indent level).bytes rest hfuel
      (Nat.le_of_succ_le_succ hroom) (List.forall_mem_singleton.2 rfl) (fun _ => isBlank_of_mem_indent)
    rw [render_array hnone]
    simp only [Text.bytes_append, List.append_assoc] at hinside ⊢
    exact readValue_array hinside

theorem readsBack_object {members : JsonTree .members} (h : members.ReadsBack) :
    (JsonTree.object members).ReadsBack := by
  refine readsBack_of_calls_eq rfl fun fuel room level rest hfuel hroom _ => ?_
  obtain ⟨room, rfl⟩ := Nat.exists_eq_add_of_le' (Nat.le_trans (Nat.le_add_left 1 _) hroom)
  by_cases hnone : members = .noMembers
  · subst hnone
    rw [readValue]
    rfl
  · have hinside := h hnone fuel room (level + 1) [0x0A] (indent level).bytes rest hfuel
      (Nat.le_of_succ_le_succ hroom) (List.forall_mem_singleton.2 rfl) (fun _ => isBlank_of_mem_indent)
    rw [render_object hnone]
    simp only [Text.bytes_append, List.append_assoc] at hinside ⊢
    exact readValue_object hinside

theorem readsBack_item {j : Json} {tail : JsonTree .items} (hj : j.ReadsBack) (htail : tail.ReadsBack) :
    (JsonTree.item j tail).ReadsBack := by
  intro _ fuel room level blanks space rest hfuel hroom hblanks hspace
  obtain ⟨fuel, rfl⟩ := Nat.exists_eq_add_of_le' (Nat.le_trans (Nat.le_add_left 1 _) hfuel)
  simp only [calls, depth] at hfuel hroom
  have hfront : ∀ b ∈ blanks ++ (indent level).bytes, isBlank b :=
    List.forall_mem_append.2 ⟨hblanks, fun _ => isBlank_of_mem_indent⟩
  by_cases hnone : tail = .noItems
  · subst hnone
    have hends : Ends (0x0A :: space ++ 0x5D :: rest) := by simp [Ends]
    have hvalue := hj fuel room level _ _ (by omega) (by omega) hfront hends
    have hclosed : skipBlank (0x0A :: space ++ 0x5D :: rest) = 0x5D :: rest := skipBlank_append hspace _
    simpa [render] using readItems_last hvalue hclosed
  · have hbreak : ∀ b ∈ [0x0A], isBlank b := List.forall_mem_singleton.2 rfl
    have hrest := htail hnone fuel room level [0x0A] space rest (by omega) (by omega) hbreak hspace
    have hends : Ends (0x2C :: ([0x0A] ++ ((tail.render level).bytes ++ (0x0A :: space ++ 0x5D :: rest)))) := by
      simp [Ends]
    have hvalue := hj fuel room level _ _ (by omega) (by omega) hfront hends
    have hcomma : (Text.ofString ",\n").bytes = [0x2C, 0x0A] := rfl
    simpa [render_item j hnone, hcomma] using readItems_more hvalue hrest

/-- The beginning of a member: its key and its value. -/
theorem member_begins {k : Text} {j : Json} (hk : k.IsUtf8) (hj : j.ReadsBack) {fuel room : Nat} (level : Nat)
    {blanks rest : List UInt8} (hfuel : j.calls ≤ fuel) (hroom : j.depth ≤ room) (hblanks : ∀ b ∈ blanks, isBlank b)
    (hrest : Ends rest) :
    ∃ body behind,
      skipBlank (blanks ++ ((indent level ++ quoted k ++ ": " ++ j.render level).bytes ++ rest)) = 0x22 :: body ∧
        readString body = .ok (k, 0x3A :: behind) ∧ readValue fuel room behind = .ok (j, rest) := by
  have hvalue := hj fuel room level [0x20] rest hfuel hroom (List.forall_mem_singleton.2 rfl) hrest
  obtain ⟨body, hquoted, hkey⟩ := readString_quoted hk (0x3A :: ([0x20] ++ ((j.render level).bytes ++ rest)))
  have hfront : ∀ b ∈ blanks ++ (indent level).bytes, isBlank b :=
    List.forall_mem_append.2 ⟨hblanks, fun _ => isBlank_of_mem_indent⟩
  have hcolon : (Text.ofString ": ").bytes = [0x3A, 0x20] := rfl
  refine ⟨_, _, ?_, hkey, hvalue⟩
  simp only [Text.bytes_append, hquoted, hcolon, List.append_assoc]
  rw [← List.append_assoc, skipBlank_append hfront]
  rfl

theorem readsBack_member {k : Text} {j : Json} {tail : JsonTree .members} (hk : k.IsUtf8) (hj : j.ReadsBack)
    (htail : tail.ReadsBack) : (JsonTree.member k j tail).ReadsBack := by
  intro _ fuel room level blanks space rest hfuel hroom hblanks hspace
  obtain ⟨fuel, rfl⟩ := Nat.exists_eq_add_of_le' (Nat.le_trans (Nat.le_add_left 1 _) hfuel)
  simp only [calls, depth] at hfuel hroom
  have hcalls : j.calls ≤ fuel := by omega
  have hdepth : j.depth ≤ room := by omega
  by_cases hnone : tail = .noMembers
  · subst hnone
    have hends : Ends (0x0A :: space ++ 0x7D :: rest) := by simp [Ends]
    obtain ⟨body, behind, hskip, hkey, hvalue⟩ := member_begins hk hj level hcalls hdepth hblanks hends
    exact readMembers_last hskip hkey hvalue (skipBlank_append hspace _)
  · have hbreak : ∀ b ∈ [0x0A], isBlank b := List.forall_mem_singleton.2 rfl
    have hrest := htail hnone fuel room level [0x0A] space rest (by omega) (by omega) hbreak hspace
    have hends : Ends (0x2C :: ([0x0A] ++ ((tail.render level).bytes ++ (0x0A :: space ++ 0x7D :: rest)))) := by
      simp [Ends]
    obtain ⟨body, behind, hskip, hkey, hvalue⟩ := member_begins hk hj level hcalls hdepth hblanks hends
    have hcomma : (Text.ofString ",\n").bytes = [0x2C, 0x0A] := rfl
    have hmore := readMembers_more hskip hkey hvalue hrest
    rw [render_member k j hnone]
    simpa [hcomma] using hmore

/-- Every plain tree is read back. -/
theorem Plain.readsBack {p : JsonPart} {j : JsonTree p} (h : j.Plain) : j.ReadsBack := by
  induction j with
  | null => exact readsBack_null
  | bool b => exact readsBack_bool b
  | number l =>
    obtain ⟨n, rfl⟩ := h
    exact readsBack_number n
  | string t => exact readsBack_string h
  | array items ih => exact readsBack_array (ih h)
  | object members ih => exact readsBack_object (ih h)
  | noItems => exact fun hne => absurd rfl hne
  | item j tail ihj iht => exact readsBack_item (ihj h.1) (iht h.2)
  | noMembers => exact fun hne => absurd rfl hne
  | member k j tail ihj iht => exact readsBack_member h.1 (ihj h.2.1) (iht h.2.2)

end JsonTree

/-- Reading a written tree gives the tree. -/
theorem Json.read_render {j : Json} (h : j.Plain) (hdepth : j.depth ≤ deepest) (level : Nat) :
    Json.read (j.render level) = .ok j := by
  have hcalls : j.calls ≤ 2 * (j.render level).size + 1 := j.calls_le_size level
  have hvalue := h.readsBack _ _ level [] [] hcalls hdepth nofun nofun
  rw [List.append_nil] at hvalue
  rw [Json.read]
  simp only [bind, Except.bind]
  rw [show (j.render level).bytes = [] ++ (j.render level).bytes from rfl, hvalue]
  rfl

end Golden

end AlgolMips
