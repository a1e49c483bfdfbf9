import AlgolMips.Mips.Line
import AlgolMips.Mips.Writer

/-!
# The output buffer

Lines are collected and written out in one go. Writing may fail and be tried again; once it has succeeded, it is refused.
-/

namespace AlgolMips.Mips

/-- The lines so far, and whether they have been written out. -/
structure Output where
  lines : List Line := []
  flushed : Bool := false

/-- Why nothing was written. -/
inductive FlushError where
  | flushed
  | write (reason : Text)
deriving DecidableEq

def FlushError.message : FlushError → Text
  | flushed => "codegen: output already flushed"
  | write reason => "codegen: writing output: " ++ reason

/-- What writing out gives, with the output and the sink behind it. -/
structure Flushed (α : Type) where
  answer : Except FlushError α
  output : Output
  sink : Sink

/-- Writes lines one by one, each with a line end behind it, and hands on what is left in the buffer. The first refusal
ends it. -/
def Writer.writeLines (w : Writer) : List Line → Writer
  | [] => w.flush
  | l :: rest =>
    if (w.writeText l.render).fault.isSome then w.writeText l.render
    else if ((w.writeText l.render).writeByte 0x0A).fault.isSome then (w.writeText l.render).writeByte 0x0A
    else ((w.writeText l.render).writeByte 0x0A).writeLines rest

namespace Output

def append (o : Output) (ls : List Line) : Output := { o with lines := o.lines ++ ls }

def text (o : Output) : Text := render o.lines

/-- Writes all lines out to a sink. -/
def flush (o : Output) (sink : Sink) : Flushed Unit :=
  if o.flushed then ⟨.error .flushed, o, sink⟩
  else
    let w := Writer.writeLines { sink } o.lines
    match w.fault with
    | some reason => ⟨.error (.write reason), o, w.sink⟩
    | none => ⟨.ok (), { o with flushed := true }, w.sink⟩

end Output

end AlgolMips.Mips
