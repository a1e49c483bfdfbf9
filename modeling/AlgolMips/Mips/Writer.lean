import AlgolMips.Text

/-!
# Buffered writing

A sink takes texts, each of them whole or not at all, as long as it has room for them. A writer in front of it collects
what is written in a buffer and hands the buffer on when it is full. So what reaches the sink are pieces whose borders
have nothing to do with those of the texts that were written. Once a piece is refused, nothing more is handed on.
-/

namespace AlgolMips.Mips

/-- Something that texts are written to. -/
structure Sink where
  /-- How many bytes it takes in all, if there is a limit. -/
  limit : Option Nat := none
  /-- What it says to a text that is too much. -/
  reason : Text := "disk full"
  /-- Whether it takes long texts past the buffer. -/
  direct : Bool := false
  /-- What it has taken. -/
  taken : Text := ""

namespace Sink

/-- Whether so many bytes are not too many. -/
def admits (s : Sink) (n : Nat) : Bool := s.limit.all fun limit => n ≤ limit

/-- Takes a text, or says why not. -/
def take (s : Sink) (t : Text) : Except Text Sink :=
  if s.admits (s.taken.size + t.size) then .ok { s with taken := s.taken ++ t } else .error s.reason

end Sink

/-- A sink behind a buffer, and why the sink has refused a piece if it has. -/
structure Writer where
  sink : Sink
  held : Text := ""
  fault : Option Text := none

namespace Writer

/-- The number of bytes that a buffer holds. -/
def capacity : Nat := 4096

/-- The number of bytes that the buffer still holds. -/
def room (w : Writer) : Nat := capacity - w.held.size

/-- Hands a text on to the sink, which leaves `held` in the buffer if it is taken. -/
def pass (w : Writer) (t held : Text) : Writer :=
  match w.sink.take t with
  | .ok sink => { w with sink, held }
  | .error reason => { w with fault := some reason }

/-- Hands the buffer on. -/
def flush (w : Writer) : Writer :=
  if w.fault.isSome || w.held.isEmpty then w else w.pass w.held ""

theorem held_flush {w : Writer} (h : ¬ w.flush.fault.isSome) : w.flush.held.size = 0 := by
  unfold flush at h ⊢
  split
  · next hskip =>
    rw [if_pos hskip] at h
    simp only [h, Bool.false_or] at hskip
    exact List.length_eq_zero_iff.2 (List.isEmpty_iff.1 hskip)
  · next hskip =>
    rw [if_neg hskip] at h
    unfold pass at h ⊢
    split
    · rfl
    · next hrefused => simp [hrefused] at h

/-- Fills the buffer with the beginning of a text and hands it on. -/
def fill (w : Writer) (t : Text) : Writer := flush { w with held := w.held ++ ⟨t.bytes.take w.room⟩ }

/-- Puts a text into the buffer. Of a text that is too long, the buffer is filled and handed on until the rest fits. -/
def writeText (w : Writer) (t : Text) : Writer :=
  if w.fault.isSome then w
  else if t.size ≤ w.room then { w with held := w.held ++ t }
  else if w.held.isEmpty && w.sink.direct then w.pass t ""
  else if (w.fill t).fault.isSome then w.fill t
  else (w.fill t).writeText ⟨t.bytes.drop w.room⟩
termination_by t.size + w.held.size
decreasing_by
  rename_i hlong _ hfault
  have hheld : (w.fill t).held.size = 0 := held_flush hfault
  simp only [Text.size, List.length_drop, room, capacity] at hlong hheld ⊢
  omega

/-- Puts a byte into the buffer, which is handed on before if it is full. -/
def writeByte (w : Writer) (b : UInt8) : Writer :=
  let ready := if w.room = 0 then w.flush else w
  if ready.fault.isSome then ready else { ready with held := ready.held ++ ⟨[b]⟩ }

end Writer

end AlgolMips.Mips
