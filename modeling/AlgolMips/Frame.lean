/-!
# Frame slots

Variables and temporaries live in slots of one word each. Slots are handed out once, from the frame's base downwards.
Offsets are machine words and wrap around.
-/

namespace AlgolMips

/-- The offset of the next free slot and the distance from one slot to the next. -/
structure Frame where
  next : Int64 := 0
  wordSize : Int64
deriving DecidableEq

namespace Frame

/-- The free slot, and the frame with the slot taken. -/
def alloc (f : Frame) : Int64 × Frame := (f.next, { f with next := f.next - f.wordSize })

end Frame

end AlgolMips
