import AlgolMips.Proofs.Folding

/-!
# Pieces of a text

The pieces of a text keep all its bytes. A byte that can only begin a character ends what comes before it, so the pieces
of two texts with a space between them are those of the one and those of the other. From this it follows that the words
of a text are words by themselves and that widths add up.
-/

namespace AlgolMips.Text

/-! ## Bytes of a character -/

section Character

variable {b : UInt8} {c : Char}

theorem of_continuation?_eq_some {n : Nat} (h : continuation? b = some n) : b.toNat = 128 + n ∧ n < 64 := by
  obtain ⟨hrange, heq⟩ := Option.ite_none_right_eq_some.1 h
  have hn := Option.some.inj heq
  omega

theorem of_scalar?_eq_some {least n : Nat} (h : scalar? least n = some c) : least ≤ n ∧ c.toNat = n := by
  obtain ⟨⟨hleast, hvalid⟩, heq⟩ := Option.ite_none_right_eq_some.1 h
  cases heq
  exact ⟨hleast, by rw [Char.ofNat, dif_pos hvalid]; rfl⟩

theorem toNat_low (c : Char) : (c.val.toUInt8 &&& 63 ||| 128).toNat = 128 + c.toNat % 64 := by
  rw [toNat_continuation, UInt32.toNat_toUInt8, Nat.mod_mod_of_dvd _ (by decide)]
  rfl

theorem toNat_shiftRight (c : Char) {k : UInt32} (hk : k.toNat < 32) :
    ((c.val >>> k).toUInt8 &&& 63 ||| 128).toNat = 128 + c.toNat / 2 ^ k.toNat % 64 := by
  rw [toNat_continuation, toNat_shiftRight_toUInt8 hk, Nat.mod_mod_of_dvd _ (by decide)]
  rfl

theorem encode_one (hb : b.toNat < 128) : String.utf8EncodeChar (Char.ofNat b.toNat) = [b] := by
  have hn : (Char.ofNat b.toNat).toNat = b.toNat := by
    rw [Char.ofNat, dif_pos (.inl (by omega))]
    rfl
  have hsize : (Char.ofNat b.toNat).utf8Size = 1 := by
    rw [Char.utf8Size_eq_one_iff, UInt32.le_iff_toNat_le]
    show (Char.ofNat b.toNat).toNat ≤ 127
    omega
  rw [String.utf8EncodeChar_eq_singleton hsize]
  refine congrArg (fun x => [x]) (UInt8.toNat_inj.1 ?_)
  rw [UInt32.toNat_toUInt8]
  show (Char.ofNat b.toNat).toNat % 256 = _
  omega

theorem encode_two {x : UInt8} {i : Nat} (hlo : 0xC0 ≤ b.toNat) (hhi : b.toNat < 0xE0) (hx : continuation? x = some i)
    (hc : scalar? 0x80 ((b.toNat - 0xC0) * 64 + i) = some c) : String.utf8EncodeChar c = [b, x] := by
  obtain ⟨hx, hi⟩ := of_continuation?_eq_some hx
  obtain ⟨hleast, hc⟩ := of_scalar?_eq_some hc
  have hsize : c.utf8Size = 2 := by
    rw [Char.utf8Size_eq_two_iff, UInt32.lt_iff_toNat_lt, UInt32.le_iff_toNat_le]
    show 127 < c.toNat ∧ c.toNat ≤ 2047
    omega
  have hlead := toNat_lead_two (c := c) (by omega)
  rw [String.utf8EncodeChar_eq_cons_cons hsize, UInt8.toNat_inj.1 (hlead.trans (by omega : _ = b.toNat)),
    UInt8.toNat_inj.1 ((toNat_low c).trans (by omega : _ = x.toNat))]

theorem encode_three {x y : UInt8} {i j : Nat} (hlo : 0xE0 ≤ b.toNat) (hhi : b.toNat < 0xF0)
    (hx : continuation? x = some i) (hy : continuation? y = some j)
    (hc : scalar? 0x800 (((b.toNat - 0xE0) * 64 + i) * 64 + j) = some c) : String.utf8EncodeChar c = [b, x, y] := by
  obtain ⟨hx, hi⟩ := of_continuation?_eq_some hx
  obtain ⟨hy, hj⟩ := of_continuation?_eq_some hy
  obtain ⟨hleast, hc⟩ := of_scalar?_eq_some hc
  have hsize : c.utf8Size = 3 := by
    rw [Char.utf8Size_eq_three_iff, UInt32.lt_iff_toNat_lt, UInt32.le_iff_toNat_le]
    show 2047 < c.toNat ∧ c.toNat ≤ 65535
    omega
  have hlead := toNat_lead_three (c := c) (by omega)
  have hsecond : ((c.val >>> 6).toUInt8 &&& 63 ||| 128).toNat = 128 + c.toNat / 64 % 64 := toNat_shiftRight c (by decide)
  rw [String.utf8EncodeChar_eq_cons_cons_cons hsize, UInt8.toNat_inj.1 (hlead.trans (by omega : _ = b.toNat)),
    UInt8.toNat_inj.1 (hsecond.trans (by omega : _ = x.toNat)),
    UInt8.toNat_inj.1 ((toNat_low c).trans (by omega : _ = y.toNat))]

theorem encode_four {x y z : UInt8} {i j k : Nat} (hlo : 0xF0 ≤ b.toNat) (hx : continuation? x = some i)
    (hy : continuation? y = some j) (hz : continuation? z = some k)
    (hc : scalar? 0x10000 ((((b.toNat - 0xF0) * 64 + i) * 64 + j) * 64 + k) = some c) :
    String.utf8EncodeChar c = [b, x, y, z] := by
  obtain ⟨hx, hi⟩ := of_continuation?_eq_some hx
  obtain ⟨hy, hj⟩ := of_continuation?_eq_some hy
  obtain ⟨hz, hk⟩ := of_continuation?_eq_some hz
  obtain ⟨hleast, hc⟩ := of_scalar?_eq_some hc
  have hsize : c.utf8Size = 4 := by
    rw [Char.utf8Size_eq_four_iff, UInt32.lt_iff_toNat_lt]
    show 65535 < c.toNat
    omega
  have hsecond : ((c.val >>> 12).toUInt8 &&& 63 ||| 128).toNat = 128 + c.toNat / 4096 % 64 :=
    toNat_shiftRight c (by decide)
  have hthird : ((c.val >>> 6).toUInt8 &&& 63 ||| 128).toNat = 128 + c.toNat / 64 % 64 := toNat_shiftRight c (by decide)
  rw [String.utf8EncodeChar_eq_cons_cons_cons_cons hsize, UInt8.toNat_inj.1 (toNat_lead_four.trans (by omega : _ = b.toNat)),
    UInt8.toNat_inj.1 (hsecond.trans (by omega : _ = x.toNat)), UInt8.toNat_inj.1 (hthird.trans (by omega : _ = y.toNat)),
    UInt8.toNat_inj.1 ((toNat_low c).trans (by omega : _ = z.toNat))]

/-- A character is read from the bytes that write it. -/
theorem encode_of_leading? {r : List UInt8} {n : Nat} (h : leading? b r = some (c, n)) :
    n ≤ r.length ∧ String.utf8EncodeChar c = b :: r.take n := by
  rw [leading?] at h
  by_cases hone : b.toNat < 0x80
  · rw [if_pos hone] at h
    cases h
    exact ⟨Nat.zero_le _, encode_one hone⟩
  by_cases hlate : b.toNat < 0xC0
  · rw [if_neg hone, if_pos hlate] at h
    cases h
  rw [if_neg hone, if_neg hlate] at h
  by_cases htwo : b.toNat < 0xE0
  · rw [if_pos htwo] at h
    simp only [Option.pure_def, Option.bind_eq_bind, Option.bind_eq_some_iff, Option.some.injEq, Prod.mk.injEq] at h
    obtain ⟨i, ⟨x, hx, hi⟩, _, hc, rfl, rfl⟩ := h
    rw [encode_two (by omega) htwo hi hc]
    exact ⟨(List.getElem?_eq_some_iff.1 hx).1, by simp [List.take_add_one, hx]⟩
  by_cases hthree : b.toNat < 0xF0
  · rw [if_neg htwo, if_pos hthree] at h
    simp only [Option.pure_def, Option.bind_eq_bind, Option.bind_eq_some_iff, Option.some.injEq, Prod.mk.injEq] at h
    obtain ⟨i, ⟨x, hx, hi⟩, j, ⟨y, hy, hj⟩, _, hc, rfl, rfl⟩ := h
    rw [encode_three (by omega) hthree hi hj hc]
    exact ⟨(List.getElem?_eq_some_iff.1 hy).1, by simp [List.take_add_one, hx, hy]⟩
  rw [if_neg htwo, if_neg hthree] at h
  by_cases hfour : b.toNat < 0xF8
  · rw [if_pos hfour] at h
    simp only [Option.pure_def, Option.bind_eq_bind, Option.bind_eq_some_iff, Option.some.injEq, Prod.mk.injEq] at h
    obtain ⟨i, ⟨x, hx, hi⟩, j, ⟨y, hy, hj⟩, k, ⟨z, hz, hk⟩, _, hc, rfl, rfl⟩ := h
    rw [encode_four (by omega) hi hj hk hc]
    exact ⟨(List.getElem?_eq_some_iff.1 hz).1, by simp [List.take_add_one, hx, hy, hz]⟩
  · rw [if_neg hfour] at h
    cases h

/-- The first byte of a character goes on with no other. -/
theorem continuation?_of_leading? {r : List UInt8} {n : Nat} (h : leading? b r = some (c, n)) : continuation? b = none := by
  refine if_neg fun ⟨hlo, hhi⟩ => ?_
  rw [leading?, if_neg (by omega), if_pos hhi] at h
  cases h

/-- What a list of bytes begins with is settled before a byte that goes on with no character. -/
theorem leading?_append {d : UInt8} (hd : continuation? d = none) (b : UInt8) (r rest : List UInt8) :
    leading? b (r ++ d :: rest) = leading? b r := by
  rcases r with _ | ⟨x, _ | ⟨y, _ | ⟨z, r⟩⟩⟩ <;>
    simp only [leading?, List.cons_append, List.nil_append, List.getElem?_cons_zero, List.getElem?_cons_succ,
      List.getElem?_nil, Option.bind_eq_bind, Option.bind_some, Option.bind_none, hd]

end Character

/-! ## Reading in parts -/

/-- A byte of the ASCII range is read as one character. -/
theorem piecesOf_cons {b : UInt8} (h : b.toNat < 128) (rest : List UInt8) :
    piecesOf (b :: rest) = .char (Char.ofNat b.toNat) :: piecesOf rest := by
  have hleading : leading? b rest = some (Char.ofNat b.toNat, 0) := if_pos h
  rw [piecesOf, hleading]
  rfl

theorem piecesOf_append_of_ascii {bs : List UInt8} (h : ∀ b ∈ bs, b.toNat < 128) (rest : List UInt8) :
    piecesOf (bs ++ rest) = (bs.map fun b => .char (Char.ofNat b.toNat)) ++ piecesOf rest := by
  induction bs with
  | nil => rfl
  | cons b bs ih =>
    obtain ⟨hb, hbs⟩ := List.forall_mem_cons.1 h
    rw [List.cons_append, piecesOf_cons hb, ih hbs]
    rfl

/-- At a byte that goes on with no character, reading begins anew. -/
theorem piecesOf_append {d : UInt8} (hd : continuation? d = none) (bs rest : List UInt8) :
    piecesOf (bs ++ d :: rest) = piecesOf bs ++ piecesOf (d :: rest) := by
  fun_induction piecesOf bs with
  | case1 => rfl
  | case2 b r c n h ih =>
    have hlength := (encode_of_leading? h).1
    rw [List.cons_append, piecesOf, leading?_append hd, h]
    simp only [List.drop_append_of_le_length hlength, ih, List.cons_append]
  | case3 b r h ih =>
    rw [List.cons_append, piecesOf, leading?_append hd, h]
    simp only [ih, List.cons_append]

/-- The pieces that a list of bytes begins with are read from their own bytes. -/
theorem exists_of_piecesOf_eq_append {bs : List UInt8} {ps qs : List Piece} (h : piecesOf bs = ps ++ qs) :
    ∃ tail, bs = ps.flatMap Piece.bytes ++ tail ∧ piecesOf tail = qs := by
  induction ps generalizing bs with
  | nil => exact ⟨bs, rfl, h⟩
  | cons p ps ih =>
    cases bs with
    | nil =>
      rw [piecesOf] at h
      cases h
    | cons b r =>
      rw [piecesOf] at h
      split at h
      · next c n hread =>
        have hbytes := (encode_of_leading? hread).2
        obtain ⟨rfl, hrest⟩ := List.cons.inj h
        obtain ⟨tail, hdrop, htail⟩ := ih hrest
        refine ⟨tail, ?_, htail⟩
        rw [List.flatMap_cons, Piece.bytes, hbytes, List.append_assoc, ← hdrop, List.cons_append, List.take_append_drop]
      · obtain ⟨rfl, hrest⟩ := List.cons.inj h
        obtain ⟨tail, rfl, htail⟩ := ih hrest
        exact ⟨tail, rfl, htail⟩

theorem eq_nil_of_piecesOf {bs : List UInt8} (h : piecesOf bs = []) : bs = [] := by
  cases bs with
  | nil => rfl
  | cons b r =>
    rw [piecesOf] at h
    split at h <;> cases h

/-- The pieces of a text make it up. -/
theorem ofPieces_pieces (t : Text) : ofPieces t.pieces = t := by
  obtain ⟨tail, hbytes, htail⟩ := exists_of_piecesOf_eq_append (List.append_nil (piecesOf t.bytes)).symm
  rw [eq_nil_of_piecesOf htail, List.append_nil] at hbytes
  exact congrArg mk hbytes.symm

/-- Pieces in front of a character, or at the end, are read from their bytes alone. -/
theorem piecesOf_flatMap_bytes {bs : List UInt8} {front ps rest : List Piece} (h : piecesOf bs = front ++ ps ++ rest)
    (hrest : ∀ p ∈ rest.head?, ∃ c, p = .char c) : piecesOf (ps.flatMap Piece.bytes) = ps := by
  rw [List.append_assoc] at h
  obtain ⟨bs, -, h⟩ := exists_of_piecesOf_eq_append h
  obtain ⟨tail, rfl, htail⟩ := exists_of_piecesOf_eq_append h
  cases rest with
  | nil =>
    rw [eq_nil_of_piecesOf htail, List.append_nil, List.append_nil] at h
    exact h
  | cons p rest =>
    -- the character's first byte ends what stands before it, so the bytes after `ps` can be left out
    obtain ⟨c, rfl⟩ := hrest p rfl
    obtain ⟨b, r, hbytes, hread⟩ := readsBack c
    have hchar : piecesOf tail = [.char c] ++ rest := htail
    obtain ⟨after, hafter, -⟩ := exists_of_piecesOf_eq_append hchar
    have hcons : tail = b :: (r ++ after) := by
      rw [hafter]
      simp [Piece.bytes, hbytes]
    rw [hcons, piecesOf_append (continuation?_of_leading? (hread [])), ← hcons, htail] at h
    exact List.append_cancel_right h

theorem pieces_append {d : UInt8} (hd : d.toNat < 128) (a b : Text) :
    (a ++ ⟨[d]⟩ ++ b).pieces = a.pieces ++ .char (Char.ofNat d.toNat) :: b.pieces := by
  have hbytes : (a ++ ⟨[d]⟩ ++ b).bytes = a.bytes ++ d :: b.bytes := List.append_assoc a.bytes [d] b.bytes
  have hnone : continuation? d = none := if_neg (by omega)
  rw [pieces, hbytes, piecesOf_append hnone, piecesOf_cons hd]
  rfl

/-! ## Words -/

theorem wordsOf_append {p : Piece} (hp : p.isBlank = true) (begun ps qs : List Piece) :
    wordsOf begun (ps ++ p :: qs) = wordsOf begun ps ++ wordsOf [] qs := by
  induction ps generalizing begun with
  | nil =>
    simp only [List.nil_append, wordsOf, if_pos hp]
    split <;> rfl
  | cons q ps ih =>
    simp only [List.cons_append, wordsOf, ih]
    split
    · split <;> rfl
    · rfl

theorem wordsOf_of_not_blank {ps : List Piece} (h : ∀ p ∈ ps, p.isBlank = false) (begun : List Piece) :
    wordsOf begun ps = if (begun ++ ps).isEmpty then [] else [begun ++ ps] := by
  induction ps generalizing begun with
  | nil => rw [List.append_nil, wordsOf]
  | cons p ps ih =>
    obtain ⟨hp, hps⟩ := List.forall_mem_cons.1 h
    rw [wordsOf, if_neg (by simp [hp]), ih hps, List.append_assoc, List.singleton_append]

/-- A word is a stretch of pieces without a blank one, up to the next that is blank. -/
theorem exists_of_mem_wordsOf {begun ps w : List Piece} (hbegun : ∀ p ∈ begun, p.isBlank = false)
    (h : w ∈ wordsOf begun ps) :
    w ≠ [] ∧ (∀ p ∈ w, p.isBlank = false) ∧
      ∃ front rest, begun ++ ps = front ++ w ++ rest ∧ ∀ p ∈ rest.head?, p.isBlank = true := by
  induction ps generalizing begun with
  | nil =>
    rw [wordsOf] at h
    split at h
    · cases h
    · next hne =>
      obtain rfl := List.mem_singleton.1 h
      exact ⟨by simpa using hne, hbegun, [], [], by simp, by simp⟩
  | cons p ps ih =>
    rw [wordsOf] at h
    split at h
    · next hp =>
      have hlater : w ∈ wordsOf [] ps → w ≠ [] ∧ (∀ p ∈ w, p.isBlank = false) ∧
          ∃ front rest, begun ++ p :: ps = front ++ w ++ rest ∧ ∀ p ∈ rest.head?, p.isBlank = true := by
        intro hw
        obtain ⟨hne, hblank, front, rest, heq, hrest⟩ := ih (by simp) hw
        refine ⟨hne, hblank, begun ++ p :: front, rest, ?_, hrest⟩
        rw [List.nil_append] at heq
        simp [heq]
      split at h
      · exact hlater h
      · next hne =>
        rcases List.mem_cons.1 h with rfl | hw
        · exact ⟨by simpa using hne, hbegun, [], p :: ps, rfl, by simpa using hp⟩
        · exact hlater hw
    · next hp =>
      have hlonger : ∀ q ∈ begun ++ [p], q.isBlank = false := List.forall_mem_append.2 ⟨hbegun, by simpa using hp⟩
      obtain ⟨hne, hblank, front, rest, heq, hrest⟩ := ih hlonger h
      exact ⟨hne, hblank, front, rest, by simpa using heq, hrest⟩

theorem words_empty : words "" = [] := by
  show (wordsOf [] (piecesOf [])).map ofPieces = []
  rw [piecesOf]
  rfl

theorem words_append (a b : Text) : (a ++ " " ++ b).words = a.words ++ b.words := by
  have hpieces : (a ++ " " ++ b).pieces = a.pieces ++ .char ' ' :: b.pieces := pieces_append (d := 0x20) (by decide) a b
  rw [words, hpieces, wordsOf_append (by decide), List.map_append]
  rfl

/-- The words of a text are words by themselves. -/
theorem words_of_mem_words {t w : Text} (h : w ∈ t.words) : w.words = [w] := by
  obtain ⟨ps, hps, rfl⟩ := List.mem_map.1 h
  obtain ⟨hne, hblank, front, rest, heq, hrest⟩ := exists_of_mem_wordsOf (by simp) hps
  have hread : (ofPieces ps).pieces = ps := by
    refine piecesOf_flatMap_bytes heq fun p hp => ?_
    cases p with
    | char c => exact ⟨c, rfl⟩
    | stray b => exact absurd (hrest _ hp) Bool.false_ne_true
  rw [words, hread, wordsOf_of_not_blank hblank, List.nil_append, if_neg (by simpa using hne)]
  rfl

/-! ## Widths -/

/-- A text of ASCII characters. -/
def IsAscii (t : Text) : Prop := ∀ b ∈ t.bytes, b.toNat < 128

instance (t : Text) : Decidable t.IsAscii := List.decidableBAll _ _

theorem width_empty : width "" = 0 := by
  show (piecesOf []).length = 0
  rw [piecesOf]
  rfl

theorem IsAscii.width_append {a : Text} (h : a.IsAscii) (t : Text) : (a ++ t).width = a.size + t.width := by
  rw [width, pieces, bytes_append, piecesOf_append_of_ascii h, List.length_append, List.length_map]
  rfl

/-- The widths of two texts add up around a separator of ASCII characters. -/
theorem width_append {sep : Text} (hsep : sep ≠ "") (hascii : sep.IsAscii) (a b : Text) :
    (a ++ sep ++ b).width = a.width + sep.size + b.width := by
  have hrest := hascii.width_append b
  obtain ⟨_ | ⟨d, ds⟩⟩ := sep
  · exact absurd rfl hsep
  · have hd := hascii d List.mem_cons_self
    have hbytes : (a ++ ⟨d :: ds⟩ ++ b).bytes = a.bytes ++ d :: (ds ++ b.bytes) := List.append_assoc a.bytes (d :: ds) b.bytes
    rw [width, pieces, hbytes, piecesOf_append (if_neg (by omega)), List.length_append, Nat.add_assoc, ← hrest]
    rfl

theorem width_le_size (t : Text) : t.width ≤ t.size := by
  rw [width, pieces, size]
  fun_induction piecesOf t.bytes with
  | case1 => exact Nat.le_refl 0
  | case2 b r c n h ih =>
    simp only [List.length_cons, List.length_drop] at ih ⊢
    omega
  | case3 b r h ih => exact Nat.succ_le_succ ih

end AlgolMips.Text
