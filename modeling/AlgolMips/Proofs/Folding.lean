import AlgolMips.Text.Words
import Mathlib.Data.Nat.Bitwise

/-!
# Folding

What is written as characters is read back as the same characters, and the lower case of a character is its own lower
case. So a folded text is its own folded text.
-/

namespace AlgolMips.Text

/-! ## Reading back -/

/-- A payload under a mark. -/
theorem toNat_and_or {b mask mark : UInt8} {i j a : Nat} (hmask : mask.toNat = 2 ^ j - 1)
    (hmark : mark.toNat = 2 ^ i * a) (hij : j ≤ i) : (b &&& mask ||| mark).toNat = mark.toNat + b.toNat % 2 ^ j := by
  have hlt : b.toNat % 2 ^ j < 2 ^ i :=
    Nat.lt_of_lt_of_le (Nat.mod_lt _ (Nat.two_pow_pos j)) (Nat.pow_le_pow_right (by decide) hij)
  rw [UInt8.toNat_or, UInt8.toNat_and, hmask, Nat.and_two_pow_sub_one_eq_mod, Nat.or_comm, hmark,
    Nat.two_pow_add_eq_or_of_lt hlt]

theorem toNat_shiftRight_toUInt8 {v k : UInt32} (hk : k.toNat < 32) :
    (v >>> k).toUInt8.toNat = v.toNat / 2 ^ k.toNat % 256 := by
  rw [UInt32.toNat_toUInt8, UInt32.toNat_shiftRight, Nat.mod_eq_of_lt hk, Nat.shiftRight_eq_div_pow]

theorem toNat_continuation (b : UInt8) : (b &&& 63 ||| 128).toNat = 128 + b.toNat % 64 :=
  toNat_and_or (i := 7) (j := 6) (a := 1) rfl rfl (by decide)

/-- The continuation byte of a payload. -/
theorem continuation?_and_or (b : UInt8) : continuation? (b &&& 63 ||| 128) = some (b.toNat % 64) := by
  rw [continuation?, toNat_continuation, if_pos (by omega), Nat.add_sub_cancel_left]

theorem scalar?_toNat {least : Nat} {c : Char} (h : least ≤ c.toNat) : scalar? least c.toNat = some c := by
  rw [scalar?, if_pos ⟨h, c.valid⟩, Char.ofNat_toNat]

/-- The continuation byte that holds the bits of a number from the `k`-th on. -/
theorem continuation?_shiftRight {v k : UInt32} (hk : k.toNat < 32) :
    continuation? ((v >>> k).toUInt8 &&& 63 ||| 128) = some (v.toNat / 2 ^ k.toNat % 64) := by
  rw [continuation?_and_or, toNat_shiftRight_toUInt8 hk, Nat.mod_mod_of_dvd _ (by decide)]

theorem continuation?_low (v : UInt32) : continuation? (v.toUInt8 &&& 63 ||| 128) = some (v.toNat % 64) := by
  rw [continuation?_and_or, UInt32.toNat_toUInt8, Nat.mod_mod_of_dvd _ (by decide)]

theorem toNat_lt (c : Char) : c.toNat < 0x110000 := by
  have hvalid := c.valid
  simp only [UInt32.isValidChar, Nat.isValidChar] at hvalid
  show c.val.toNat < _
  omega

/-- A character is read from its bytes, whatever follows them. -/
def ReadsBack (c : Char) : Prop :=
  ∃ b r, String.utf8EncodeChar c = b :: r ∧ ∀ rest, leading? b (r ++ rest) = some (c, r.length)

section Sizes

variable {c : Char}

theorem toNat_lead_two (h : c.toNat ≤ 2047) : ((c.val >>> 6).toUInt8 &&& 31 ||| 192).toNat = 192 + c.toNat / 64 := by
  rw [toNat_and_or (i := 6) (j := 5) (a := 3) rfl rfl (by decide), toNat_shiftRight_toUInt8 (by decide)]
  show 192 + c.toNat / 64 % 256 % 32 = _
  omega

theorem toNat_lead_three (h : c.toNat ≤ 65535) :
    ((c.val >>> 12).toUInt8 &&& 15 ||| 224).toNat = 224 + c.toNat / 4096 := by
  rw [toNat_and_or (i := 5) (j := 4) (a := 7) rfl rfl (by decide), toNat_shiftRight_toUInt8 (by decide)]
  show 224 + c.toNat / 4096 % 256 % 16 = _
  omega

theorem toNat_lead_four : ((c.val >>> 18).toUInt8 &&& 7 ||| 240).toNat = 240 + c.toNat / 262144 := by
  have hlimit := toNat_lt c
  rw [toNat_and_or (i := 4) (j := 3) (a := 15) rfl rfl (by decide), toNat_shiftRight_toUInt8 (by decide)]
  show 240 + c.toNat / 262144 % 256 % 8 = _
  omega

theorem readsBack_one (hsize : c.utf8Size = 1) : ReadsBack c := by
  have hn : c.toNat ≤ 127 := UInt32.le_iff_toNat_le.1 (Char.utf8Size_eq_one_iff.1 hsize)
  refine ⟨_, _, String.utf8EncodeChar_eq_singleton hsize, fun rest => ?_⟩
  have hb : c.val.toUInt8.toNat = c.toNat := by
    rw [UInt32.toNat_toUInt8]
    exact Nat.mod_eq_of_lt (Nat.lt_of_le_of_lt hn (by decide))
  simp only [leading?, hb]
  rw [if_pos (by omega), Char.ofNat_toNat]
  rfl

theorem readsBack_two (hsize : c.utf8Size = 2) : ReadsBack c := by
  obtain ⟨hlo, hhi⟩ := Char.utf8Size_eq_two_iff.1 hsize
  have hlo : 127 < c.toNat := UInt32.lt_iff_toNat_lt.1 hlo
  have hhi : c.toNat ≤ 2047 := UInt32.le_iff_toNat_le.1 hhi
  refine ⟨_, _, String.utf8EncodeChar_eq_cons_cons hsize, fun rest => ?_⟩
  have hcode : (192 + c.toNat / 64 - 192) * 64 + c.val.toNat % 64 = c.toNat := by
    show (192 + c.toNat / 64 - 192) * 64 + c.toNat % 64 = c.toNat
    omega
  simp only [leading?, toNat_lead_two hhi]
  rw [if_neg (by omega), if_neg (by omega), if_pos (by omega)]
  simp only [List.cons_append, List.getElem?_cons_zero, Option.bind_eq_bind, Option.bind_some, continuation?_low, hcode,
    scalar?_toNat hlo]
  rfl

theorem readsBack_three (hsize : c.utf8Size = 3) : ReadsBack c := by
  obtain ⟨hlo, hhi⟩ := Char.utf8Size_eq_three_iff.1 hsize
  have hlo : 2047 < c.toNat := UInt32.lt_iff_toNat_lt.1 hlo
  have hhi : c.toNat ≤ 65535 := UInt32.le_iff_toNat_le.1 hhi
  refine ⟨_, _, String.utf8EncodeChar_eq_cons_cons_cons hsize, fun rest => ?_⟩
  have hcode : ((224 + c.toNat / 4096 - 224) * 64 + c.val.toNat / 2 ^ (6 : UInt32).toNat % 64) * 64 +
      c.val.toNat % 64 = c.toNat := by
    show ((224 + c.toNat / 4096 - 224) * 64 + c.toNat / 64 % 64) * 64 + c.toNat % 64 = c.toNat
    omega
  have hmiddle := continuation?_shiftRight (v := c.val) (k := 6) (by decide)
  simp only [leading?, toNat_lead_three hhi]
  rw [if_neg (by omega), if_neg (by omega), if_neg (by omega), if_pos (by omega)]
  simp only [List.cons_append, List.getElem?_cons_zero, List.getElem?_cons_succ, Option.bind_eq_bind,
    Option.bind_some, hmiddle, continuation?_low, hcode, scalar?_toNat hlo]
  rfl

theorem readsBack_four (hsize : c.utf8Size = 4) : ReadsBack c := by
  have hlo : 65535 < c.toNat := UInt32.lt_iff_toNat_lt.1 (Char.utf8Size_eq_four_iff.1 hsize)
  have hlimit := toNat_lt c
  refine ⟨_, _, String.utf8EncodeChar_eq_cons_cons_cons_cons hsize, fun rest => ?_⟩
  have hcode : (((240 + c.toNat / 262144 - 240) * 64 + c.val.toNat / 2 ^ (12 : UInt32).toNat % 64) * 64 +
      c.val.toNat / 2 ^ (6 : UInt32).toNat % 64) * 64 + c.val.toNat % 64 = c.toNat := by
    show (((240 + c.toNat / 262144 - 240) * 64 + c.toNat / 4096 % 64) * 64 + c.toNat / 64 % 64) * 64 +
      c.toNat % 64 = c.toNat
    omega
  have hsecond := continuation?_shiftRight (v := c.val) (k := 12) (by decide)
  have hthird := continuation?_shiftRight (v := c.val) (k := 6) (by decide)
  simp only [leading?, toNat_lead_four]
  rw [if_neg (by omega), if_neg (by omega), if_neg (by omega), if_neg (by omega), if_pos (by omega)]
  simp only [List.cons_append, List.getElem?_cons_zero, List.getElem?_cons_succ, Option.bind_eq_bind,
    Option.bind_some, hsecond, hthird, continuation?_low, hcode, scalar?_toNat hlo]
  rfl

end Sizes

theorem readsBack (c : Char) : ReadsBack c := by
  rcases c.utf8Size_eq with hsize | hsize | hsize | hsize
  · exact readsBack_one hsize
  · exact readsBack_two hsize
  · exact readsBack_three hsize
  · exact readsBack_four hsize

/-- Characters are read back from the text that they make up. -/
@[simp] theorem chars_ofChars (cs : List Char) : (ofChars cs).chars = cs := by
  have hpieces : piecesOf (cs.flatMap String.utf8EncodeChar) = cs.map .char := by
    induction cs with
    | nil => rw [List.flatMap_nil, piecesOf]; rfl
    | cons c rest ih =>
      obtain ⟨b, r, henc, hread⟩ := readsBack c
      rw [List.flatMap_cons, henc, List.cons_append, piecesOf, hread]
      simp only [List.drop_left, ih, List.map_cons]
  rw [chars, pieces, ofChars, hpieces, List.map_map]
  exact List.map_id cs

/-! ## Lower case -/

namespace CaseRun

/-- The code points of a run. -/
def Has (run : CaseRun) (n : Nat) : Prop := run.first ≤ n ∧ n ≤ run.last ∧ (n - run.first) % run.step = 0

/-- Where the code points of a run are moved. -/
def image (run : CaseRun) : CaseRun :=
  { run with first := (run.first + run.shift).toNat, last := (run.last + run.shift).toNat }

/-- Two runs lie one behind the other, or one of two steps lies between the code points of the other. -/
def apart (p q : CaseRun) : Bool :=
  p.last.blt q.first || q.last.blt p.first ||
    (q.step.beq 2 && (p.step.beq 2 || p.first.beq p.last) && ((p.first + q.first) % 2).beq 1)

/-- A run stays within the characters. -/
def lands (p : CaseRun) : Bool := p.last.blt 0xD800 || (Nat.blt 0xDFFF p.first && p.last.blt 0x110000)

theorem not_has_of_apart {p q : CaseRun} (h : p.apart q) {n : Nat} (hp : p.Has n) : ¬ q.Has n := by
  obtain ⟨hp₁, hp₂, hp₃⟩ := hp
  rintro ⟨hq₁, hq₂, hq₃⟩
  simp only [apart, Bool.or_eq_true, Bool.and_eq_true, Nat.blt_eq, Nat.beq_eq] at h
  rcases h with (hbefore | hbehind) | ⟨⟨hq, hp⟩, hodd⟩
  · omega
  · omega
  · rw [hq] at hq₃
    rcases hp with hstep | hsingle
    · rw [hstep] at hp₃
      omega
    · omega

theorem isValidChar_of_lands {p : CaseRun} (h : p.lands) {n : Nat} (hp : p.Has n) : n.isValidChar := by
  simp only [lands, Bool.or_eq_true, Bool.and_eq_true, Nat.blt_eq] at h
  obtain ⟨hfirst, hlast, -⟩ := hp
  unfold Nat.isValidChar
  omega

theorem has_image {run : CaseRun} (h : 0 ≤ run.first + run.shift) {n : Nat} (hn : run.Has n) :
    run.image.Has (n + run.shift).toNat := by
  obtain ⟨hfirst, hlast, hstep⟩ := hn
  refine ⟨?_, ?_, ?_⟩
  · show (run.first + run.shift).toNat ≤ _
    omega
  · show _ ≤ (run.last + run.shift).toNat
    omega
  · have hdistance : (n + run.shift).toNat - (run.first + run.shift).toNat = n - run.first := by omega
    show ((n + run.shift).toNat - (run.first + run.shift).toNat) % run.step = 0
    rw [hdistance, hstep]

end CaseRun

theorem lowerShift_of_not_has {runs : List CaseRun} {n : Nat} (h : ∀ run ∈ runs, ¬ run.Has n) :
    lowerShift runs n = 0 := by
  induction runs with
  | nil => rfl
  | cons run rest ih =>
    obtain ⟨hrun, hrest⟩ := List.forall_mem_cons.1 h
    rw [lowerShift]
    split
    · rfl
    · split
      · rw [if_neg fun hstep => hrun ⟨by omega, by omega, hstep⟩]
      · exact ih hrest

/-- A code point is its own lower case, or lies in a run and is moved by its distance. -/
theorem lowerShift_cases (runs : List CaseRun) (n : Nat) :
    lowerShift runs n = 0 ∨ ∃ run ∈ runs, run.Has n ∧ lowerShift runs n = run.shift := by
  induction runs with
  | nil => exact .inl rfl
  | cons run rest ih =>
    rw [lowerShift]
    split
    · exact .inl rfl
    · split
      · split
        · next hstep => exact .inr ⟨run, List.mem_cons_self, ⟨by omega, by omega, hstep⟩, rfl⟩
        · exact .inl rfl
      · refine ih.imp_right ?_
        rintro ⟨other, hmem, hother⟩
        exact ⟨other, List.mem_cons_of_mem _ hmem, hother⟩

/-- No run of the table moves a code point into a run of the table, or to what is no character. -/
theorem caseRuns_settle : (caseRuns.all fun run =>
    decide (0 ≤ run.first + run.shift) && run.image.lands && caseRuns.all fun other => run.image.apart other) = true := by
  decide +kernel

theorem lowerChar_of_shift {c : Char} (h : lowerShift caseRuns c.toNat = 0) : lowerChar c = c := by
  rw [lowerChar, h, Int.add_zero, Int.toNat_natCast, Char.ofNat_toNat]

/-- A character is its own lower case, or its lower case lies where a run is moved. -/
theorem lowerChar_cases (c : Char) :
    (lowerShift caseRuns c.toNat = 0 ∧ lowerChar c = c) ∨ ∃ run ∈ caseRuns, run.image.Has (lowerChar c).toNat := by
  rcases lowerShift_cases caseRuns c.toNat with hzero | ⟨run, hmem, hhas, hshift⟩
  · exact .inl ⟨hzero, lowerChar_of_shift hzero⟩
  · have hsettle := List.all_eq_true.1 caseRuns_settle run hmem
    simp only [Bool.and_eq_true, decide_eq_true_eq] at hsettle
    obtain ⟨⟨hnonneg, hlands⟩, -⟩ := hsettle
    have himage := CaseRun.has_image hnonneg hhas
    have hvalid := CaseRun.isValidChar_of_lands hlands himage
    have hcode : (lowerChar c).toNat = (c.toNat + run.shift).toNat := by
      rw [lowerChar, hshift, Char.ofNat, dif_pos hvalid]
      rfl
    exact .inr ⟨run, hmem, hcode ▸ himage⟩

/-- Before the small letters nothing is the lower case of another character. -/
theorem eq_of_lowerChar_eq {c d : Char} (hd : d.toNat < 0x61) (h : lowerChar c = d) : c = d := by
  have himages : (caseRuns.all fun run => decide (0x61 ≤ run.image.first)) = true := by decide +kernel
  rcases lowerChar_cases c with ⟨-, hself⟩ | ⟨run, hmem, hfirst, -, -⟩
  · exact hself ▸ h
  · have hlarge : 0x61 ≤ run.image.first := of_decide_eq_true (List.all_eq_true.1 himages run hmem)
    rw [h] at hfirst
    omega

/-- A lower case character is its own lower case. -/
@[simp] theorem lowerChar_lowerChar (c : Char) : lowerChar (lowerChar c) = lowerChar c := by
  apply lowerChar_of_shift
  rcases lowerChar_cases c with ⟨hzero, hself⟩ | ⟨run, hmem, himage⟩
  · rw [hself, hzero]
  · have hsettle := List.all_eq_true.1 caseRuns_settle run hmem
    simp only [Bool.and_eq_true, decide_eq_true_eq] at hsettle
    exact lowerShift_of_not_has fun other hother =>
      CaseRun.not_has_of_apart (List.all_eq_true.1 hsettle.2 other hother) himage

@[simp] theorem foldChars_foldChars (cs : List Char) : foldChars (foldChars cs) = foldChars cs := by
  simp [foldChars]

@[simp] theorem fold_fold (t : Text) : t.fold.fold = t.fold := by
  simp [fold]

end AlgolMips.Text
