import AlgolMips.Text

/-!
# Replacing texts

Several texts are replaced in one pass from left to right. Where more than one of them stands, the first in the list wins,
and what was put in place of a text is not looked at again.
-/

namespace AlgolMips.Text

/-- The first pair whose old text stands at the beginning, with what is left behind it. Empty texts never stand anywhere. -/
def replacementAt? (pairs : List (Text × Text)) (bs : List UInt8) : Option (Text × List UInt8) :=
  pairs.findSome? fun (old, new) =>
    if !old.isEmpty && old.bytes.isPrefixOf bs then some (new, bs.drop old.size) else none

theorem length_replacementAt? {pairs : List (Text × Text)} {bs : List UInt8} {r : Text × List UInt8}
    (h : replacementAt? pairs bs = some r) : r.2.length < bs.length := by
  obtain ⟨⟨old, new⟩, _, hp⟩ := List.exists_of_findSome?_eq_some h
  simp only at hp
  split at hp
  · rename_i hold
    simp only [Bool.and_eq_true, Bool.not_eq_true', List.isPrefixOf_iff_prefix] at hold
    obtain ⟨hne, ⟨tail, rfl⟩⟩ := hold
    cases hp
    have : old.bytes ≠ [] := by
      intro h0
      rw [isEmpty, h0] at hne
      cases hne
    have := List.length_pos_iff.mpr this
    simp only [size, List.drop_left, List.length_append]
    omega
  · cases hp

def replaceBytes (pairs : List (Text × Text)) (bs : List UInt8) : List UInt8 :=
  match h : replacementAt? pairs bs with
  | some (new, rest) =>
    have := length_replacementAt? h
    new.bytes ++ replaceBytes pairs rest
  | none =>
    match bs with
    | [] => []
    | b :: rest => b :: replaceBytes pairs rest
termination_by bs.length

/-- A text with each old text of the pairs replaced by the new one. -/
def replace (pairs : List (Text × Text)) (t : Text) : Text := ⟨replaceBytes pairs t.bytes⟩

end AlgolMips.Text
