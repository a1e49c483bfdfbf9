import AlgolMips.Proofs.Texts
import AlgolMips.Translation
import Mathlib.Data.List.Infix

/-!
# Writing out is all or nothing, and happens once

A writer hands its text on in pieces that have nothing to do with the lines it was given. Still, what it was given so far
is always what the sink has taken followed by what is held; and once a piece is refused, the text up to and with that
piece is too long for the sink. So lines are written out in full exactly if their text as a whole is not too long, and
what a sink has taken otherwise is a beginning of that text.

Over a whole session of lines appended and attempts to write them out, at most one attempt succeeds. Those after it are
refused, and those before it have changed nothing.
-/

namespace AlgolMips.Mips

namespace Sink

theorem admits_iff {s : Sink} {n : Nat} : s.admits n = true ↔ ∀ limit ∈ s.limit, n ≤ limit := by
  simp [admits, Option.all_eq_true]

theorem admits_zero (s : Sink) : s.admits 0 := admits_iff.2 fun _ _ => Nat.zero_le _

theorem admits_of_le {s : Sink} {m n : Nat} (hle : m ≤ n) (h : s.admits n) : s.admits m :=
  admits_iff.2 fun limit hlimit => hle.trans (admits_iff.1 h limit hlimit)

end Sink

/-! ## What a writer has been given -/

namespace Writer

/-- The writer has been given `t` for the sink `s` and nothing was refused: a beginning of `t` is taken, the rest held. -/
structure Carries (w : Writer) (s : Sink) (t : Text) : Prop where
  fault : w.fault = none
  sink : w.sink = { s with taken := w.sink.taken }
  whole : w.sink.taken ++ w.held = t
  admitted : s.admits w.sink.taken.size

/-- The writer has been given `t` for the sink `s`, which has refused a piece: a beginning of `t` is taken, and `t` is too
long. -/
structure Refused (w : Writer) (s : Sink) (t : Text) : Prop where
  fault : w.fault = some s.reason
  sink : w.sink = { s with taken := w.sink.taken }
  beginning : w.sink.taken.bytes <+: t.bytes
  tooLong : ¬ s.admits t.size

/-- The writer has been given `t` for the sink `s`. -/
def Given (w : Writer) (s : Sink) (t : Text) : Prop := w.Carries s t ∨ w.Refused s t

variable {w : Writer} {s : Sink} {t : Text}

theorem Given.carries (h : w.Given s t) (hfault : ¬ w.fault.isSome) : w.Carries s t := by
  rcases h with h | h
  · exact h
  · simp [h.fault] at hfault

theorem Given.refused (h : w.Given s t) (hfault : w.fault.isSome) : w.Refused s t := by
  rcases h with h | h
  · simp [h.fault] at hfault
  · exact h

/-- After a refusal it makes no difference what else is given. -/
theorem Refused.append (h : w.Refused s t) (more : Text) : w.Refused s (t ++ more) where
  fault := h.fault
  sink := h.sink
  beginning := h.beginning.trans (List.prefix_append _ _)
  tooLong hadmitted := h.tooLong (Sink.admits_of_le (by simp) hadmitted)

theorem given_pass {piece held : Text} (hfault : w.fault = none) (hsink : w.sink = { s with taken := w.sink.taken })
    (hwhole : w.sink.taken ++ piece ++ held = t) : (w.pass piece held).Given s t := by
  have htake : w.sink.take piece = if s.admits (w.sink.taken ++ piece).size
      then .ok { s with taken := w.sink.taken ++ piece } else .error s.reason := by
    rw [Sink.take, hsink, Text.size_append]
    rfl
  subst hwhole
  by_cases hadmits : s.admits (w.sink.taken ++ piece).size
  · rw [if_pos hadmits] at htake
    simp only [pass, htake]
    exact .inl ⟨hfault, rfl, rfl, hadmits⟩
  · rw [if_neg hadmits] at htake
    simp only [pass, htake]
    refine .inr ⟨rfl, hsink, ?_, fun hall => hadmits (Sink.admits_of_le (by simp) hall)⟩
    rw [Text.append_assoc]
    exact List.prefix_append _ _

theorem Carries.flush (h : w.Carries s t) : w.flush.Given s t := by
  unfold Writer.flush
  split
  · exact .inl h
  · refine given_pass h.fault h.sink ?_
    rw [h.whole, Text.append_empty]

theorem Carries.hold (h : w.Carries s t) (more : Text) : Carries { w with held := w.held ++ more } s (t ++ more) where
  fault := h.fault
  sink := h.sink
  whole := by rw [← h.whole, Text.append_assoc]
  admitted := h.admitted

theorem Carries.fill (h : w.Carries s t) (more : Text) : (w.fill more).Given s (t ++ ⟨more.bytes.take w.room⟩) :=
  (h.hold _).flush

-- The induction is on the pieces that the buffer cuts off the text. A direct pass is the last one.
theorem Carries.writeText {more : Text} (h : w.Carries s t) : (w.writeText more).Given s (t ++ more) := by
  induction w, more using Writer.writeText.induct generalizing t with
  | case1 w more hfault => simp [h.fault] at hfault
  | case2 w more hfault hfits =>
    rw [Writer.writeText, if_neg hfault, if_pos hfits]
    exact .inl (h.hold more)
  | case3 w more hfault hlong hdirect =>
    rw [Writer.writeText, if_neg hfault, if_neg hlong, if_pos hdirect]
    simp only [Bool.and_eq_true] at hdirect
    have hempty : w.held = Text.ofString "" := congrArg Text.mk (List.isEmpty_iff.1 hdirect.1)
    refine given_pass h.fault h.sink ?_
    rw [← h.whole, hempty, Text.append_empty, Text.append_empty]
  | case4 w more hfault hlong hdirect hfill =>
    rw [Writer.writeText, if_neg hfault, if_neg hlong, if_neg hdirect, if_pos hfill]
    have hrefused := ((h.fill more).refused hfill).append ⟨more.bytes.drop w.room⟩
    rw [Text.append_assoc, Text.take_append_drop] at hrefused
    exact .inr hrefused
  | case5 w more hfault hlong hdirect hfill ih =>
    rw [Writer.writeText, if_neg hfault, if_neg hlong, if_neg hdirect, if_neg hfill]
    have hrest := ih ((h.fill more).carries hfill)
    rwa [Text.append_assoc, Text.take_append_drop] at hrest

theorem Carries.writeByte (h : w.Carries s t) (b : UInt8) : (w.writeByte b).Given s (t ++ ⟨[b]⟩) := by
  have hready : (if w.room = 0 then w.flush else w).Given s t := by
    split
    · exact h.flush
    · exact .inl h
  unfold Writer.writeByte
  generalize (if w.room = 0 then w.flush else w) = ready at hready
  dsimp only
  split
  · next hfault => exact .inr ((hready.refused hfault).append _)
  · next hfault => exact .inl ((hready.carries hfault).hold _)

theorem render_cons (l : Line) (ls : List Line) : render (l :: ls) = l.render ++ ⟨[0x0A]⟩ ++ render ls := rfl

/-- Behind the last line nothing is held, unless a piece was refused. -/
theorem held_writeLines {ls : List Line} (hfault : ¬ (w.writeLines ls).fault.isSome) :
    (w.writeLines ls).held.size = 0 := by
  induction ls generalizing w with
  | nil => exact held_flush hfault
  | cons l rest ih =>
    unfold writeLines at hfault ⊢
    split
    · next hline => simp [hline] at hfault
    · next hline =>
      rw [if_neg hline] at hfault
      split
      · next hend => simp [hend] at hfault
      · next hend =>
        rw [if_neg hend] at hfault
        exact ih hfault

theorem Carries.writeLines {ls : List Line} (h : w.Carries s t) : (w.writeLines ls).Given s (t ++ render ls) := by
  induction ls generalizing w t with
  | nil =>
    rw [show t ++ render [] = t from Text.append_empty t]
    exact h.flush
  | cons l rest ih =>
    have hline : (w.writeText l.render).Given s (t ++ l.render) := h.writeText
    rw [render_cons, ← Text.append_assoc, ← Text.append_assoc]
    unfold Writer.writeLines
    split
    · next hfault => exact .inr (((hline.refused hfault).append _).append _)
    · next hfault =>
      have hend := (hline.carries hfault).writeByte 0x0A
      split
      · next hfault => exact .inr ((hend.refused hfault).append _)
      · next hfault => exact ih (hend.carries hfault)

end Writer

/-! ## One attempt -/

namespace Output

theorem flush_of_flushed {o : Output} (h : o.flushed = true) (sink : Sink) : o.flush sink = ⟨.error .flushed, o, sink⟩ :=
  if_pos h

/-- An attempt on lines that have not been written out gives all of their text to an empty sink that it is not too long
for, and to another one a beginning of it. -/
theorem flush_of_open {o : Output} (hopen : o.flushed = false) (sink : Sink) (hempty : sink.taken = "") :
    if sink.admits o.text.size then o.flush sink = ⟨.ok (), { o with flushed := true }, { sink with taken := o.text }⟩
    else ∃ taken : Text, taken.bytes <+: o.text.bytes ∧
      o.flush sink = ⟨.error (.write sink.reason), o, { sink with taken }⟩ := by
  have hstart : Writer.Carries { sink } sink "" :=
    ⟨rfl, rfl, by rw [hempty, Text.append_empty], by rw [hempty]; exact sink.admits_zero⟩
  have hgiven : (Writer.writeLines { sink } o.lines).Given sink o.text := hstart.writeLines
  have hheld := @Writer.held_writeLines { sink } o.lines
  simp only [flush, hopen, Bool.false_eq_true, if_false]
  generalize Writer.writeLines { sink } o.lines = w at hgiven hheld
  rcases hgiven with hall | hrefused
  · have hnothing : w.held = Text.ofString "" :=
      congrArg Text.mk (List.length_eq_zero_iff.1 (hheld (by simp [hall.fault])))
    have htaken : w.sink.taken = o.text := by rw [← hall.whole, hnothing, Text.append_empty]
    rw [if_pos (htaken ▸ hall.admitted), hall.fault, hall.sink, htaken]
  · rw [if_neg hrefused.tooLong, hrefused.fault]
    exact ⟨w.sink.taken, hrefused.beginning, by rw [← hrefused.sink]⟩

theorem answer_flush_of_open {o : Output} (hopen : o.flushed = false) (sink : Sink) :
    (o.flush sink).answer ≠ .error .flushed := by
  simp only [flush, hopen, Bool.false_eq_true, if_false]
  split <;> simp

/-! ## Sessions -/

/-- What is done with an output. -/
inductive Action where
  | append (ls : List Line)
  /-- An attempt to write all lines out to a sink. -/
  | flush (sink : Sink)

def perform (o : Output) : Action → Output
  | .append ls => o.append ls
  | .flush sink => (o.flush sink).output

def run (o : Output) (actions : List Action) : Output := actions.foldl perform o

/-- Some attempt among the actions on a new output has succeeded. -/
def WrittenOut (actions : List Action) : Prop :=
  ∃ before sink after, actions = before ++ .flush sink :: after ∧ ((run {} before).flush sink).answer = .ok ()

theorem run_append (o : Output) (before after : List Action) : o.run (before ++ after) = (o.run before).run after :=
  List.foldl_append

/-- An attempt marks the output exactly if it succeeds. -/
theorem flushed_flush {o : Output} {sink : Sink} (hopen : o.flushed = false) :
    (o.flush sink).output.flushed = true ↔ (o.flush sink).answer = .ok () := by
  simp only [flush, hopen, Bool.false_eq_true, if_false]
  split <;> simp [hopen]

/-- A marked output stays marked. -/
theorem flushed_perform {o : Output} (h : o.flushed = true) (a : Action) : (o.perform a).flushed = true := by
  cases a with
  | append ls => exact h
  | flush sink => rw [perform, flush_of_flushed h]; exact h

-- The induction is on the last action: the others make up a session for which the statement holds.
theorem flushed_run (actions : List Action) : (run {} actions).flushed = true ↔ WrittenOut actions := by
  induction actions using List.reverseRecOn with
  | nil => simp [run, WrittenOut]
  | append_singleton actions last ih =>
    rw [run_append]
    change ((run {} actions).perform last).flushed = true ↔ _
    constructor
    · intro hflushed
      by_cases hbefore : (run {} actions).flushed = true
      · obtain ⟨before, sink, after, rfl, hok⟩ := ih.1 hbefore
        exact ⟨before, sink, after ++ [last], by simp, hok⟩
      · rw [Bool.not_eq_true] at hbefore
        cases last with
        | append ls => exact absurd (hbefore.symm.trans hflushed) (by decide)
        | flush sink => exact ⟨actions, sink, [], rfl, (flushed_flush hbefore).1 hflushed⟩
    · rintro ⟨before, sink, after, heq, hok⟩
      rcases List.eq_nil_or_concat after with rfl | ⟨after, a, rfl⟩
      · obtain ⟨rfl, hlast⟩ := List.append_inj' heq rfl
        obtain rfl : last = .flush sink := by simpa using hlast
        have hopen : (run {} actions).flushed = false := by
          by_contra hflushed
          rw [Bool.not_eq_false] at hflushed
          rw [flush_of_flushed hflushed] at hok
          cases hok
        exact (flushed_flush hopen).2 hok
      · have hsplit : actions = before ++ .flush sink :: after := by
          refine (List.append_inj' (?_ : actions ++ [last] = (before ++ .flush sink :: after) ++ [a]) rfl).1
          simpa using heq
        exact flushed_perform (ih.2 ⟨before, sink, after, hsplit, hok⟩) last

/-- A session goes on after an attempt that has left the output as it was as if the attempt had not been made. -/
theorem run_flush_of_eq {actions : List Action} {sink : Sink}
    (h : ((run {} actions).flush sink).output = run {} actions) (later : List Action) :
    run {} (actions ++ .flush sink :: later) = run {} (actions ++ later) := by
  rw [run_append, run_append]
  change ((run {} actions).flush sink).output.run later = _
  rw [h]

end Output

/-- A translator has its code written out exactly where it is to be, and the attempt succeeds. -/
theorem answer_translator_flush (t : Translator) (s : Settings) (o : Output) (sink : Sink) :
    (t.flush s o sink).answer = .ok true ↔ t.shouldFlush s ∧ (o.flush sink).answer = .ok () := by
  unfold Translator.flush
  split
  · next hwrites =>
    cases hanswer : (o.flush sink).answer <;> simp [hwrites, hanswer, Except.map]
  · next hwrites => simp [hwrites]

/-- In every session of lines appended and attempts to write them out, an attempt is refused and leaves the sink alone
exactly if an earlier one has succeeded. Otherwise it succeeds exactly if the text of all lines is not too long for the
sink, which then has taken that text and nothing else. If it is too long, the sink has taken a beginning of it, and the
session goes on as if the attempt had not been made. -/
theorem flush_all_or_nothing (actions : List Output.Action) (sink : Sink) (hempty : sink.taken = "") :
    let o := Output.run {} actions
    let attempt := o.flush sink
    (attempt.answer = .error .flushed ↔ Output.WrittenOut actions) ∧
    (Output.WrittenOut actions → attempt.sink = sink ∧ attempt.output = o) ∧
    (¬ Output.WrittenOut actions →
      (attempt.answer = .ok () ↔ ∀ limit ∈ sink.limit, o.text.size ≤ limit) ∧
      (attempt.answer = .ok () →
        attempt.sink = { sink with taken := o.text } ∧ attempt.output = { o with flushed := true }) ∧
      (attempt.answer ≠ .ok () →
        attempt.answer = .error (.write sink.reason) ∧ attempt.sink.taken.bytes <+: o.text.bytes ∧
        attempt.output = o ∧
        ∀ later, Output.run {} (actions ++ .flush sink :: later) = Output.run {} (actions ++ later))) ∧
    (∀ before earlier after, actions = before ++ .flush earlier :: after →
      ((Output.run {} before).flush earlier).answer = .ok () → attempt.answer ≠ .ok ()) ∧
    ∀ (t : Translator) (s : Settings),
      ((t.flush s o sink).answer = .ok true ↔ t.shouldFlush s ∧ attempt.answer = .ok ()) ∧
      (t.shouldFlush s → (t.flush s o sink).output = attempt.output ∧ (t.flush s o sink).sink = attempt.sink) ∧
      (¬ t.shouldFlush s → t.flush s o sink = ⟨.ok false, o, sink⟩) := by
  intro o attempt
  have hrefuse : Output.WrittenOut actions → attempt = ⟨.error .flushed, o, sink⟩ := fun h =>
    Output.flush_of_flushed ((Output.flushed_run actions).2 h) sink
  have hopen : ¬ Output.WrittenOut actions → o.flushed = false := fun h => by
    simpa [o] using mt (Output.flushed_run actions).1 h
  refine ⟨⟨fun herror => ?_, fun h => by rw [hrefuse h]⟩, fun h => by rw [hrefuse h]; exact ⟨rfl, rfl⟩, fun h => ?_,
    fun before earlier after heq hok => ?_, fun t s => ⟨answer_translator_flush t s o sink, ?_, fun h => if_neg h⟩⟩
  · by_contra hnot
    exact Output.answer_flush_of_open (hopen hnot) sink herror
  · have hcases := Output.flush_of_open (hopen h) sink hempty
    split at hcases <;> rename_i hadmits
    · have hattempt : attempt = _ := hcases
      rw [hattempt]
      exact ⟨iff_of_true rfl (Sink.admits_iff.1 hadmits), fun _ => ⟨rfl, rfl⟩, fun hne => absurd rfl hne⟩
    · obtain ⟨taken, hbeginning, hattempt⟩ : ∃ taken, _ ∧ attempt = _ := hcases
      have hnot : attempt.answer ≠ .ok () := by rw [hattempt]; exact nofun
      have hsame : attempt.output = o := by rw [hattempt]
      refine ⟨iff_of_false hnot (mt Sink.admits_iff.2 hadmits), fun hok => absurd hok hnot, fun _ => ?_⟩
      refine ⟨by rw [hattempt], ?_, hsame, Output.run_flush_of_eq hsame⟩
      rw [hattempt]
      exact hbeginning
  · rw [hrefuse ⟨before, earlier, after, heq, hok⟩]
    exact nofun
  · intro hwrites
    rw [Translator.flush, if_pos hwrites]
    exact ⟨rfl, rfl⟩

/-- Two lines that do not fit into the buffer together. -/
def longLines : Output.Action := .append (List.replicate 2 (.verbatim ⟨List.replicate 3000 0x78⟩))

/-- Of the two lines, a sink for fewer bytes takes one full buffer, which ends within the second line, and refuses the
rest. A sink for all bytes then takes them from the first on, and they are never written again. -/
theorem longLines_written_once :
    let o := Output.run {} [longLines]
    let small : Sink := { limit := some 5000 }
    let large : Sink := { limit := some 6002 }
    small.taken = "" ∧ large.taken = "" ∧ (o.flush small).answer = .error (.write "disk full") ∧
    (o.flush small).sink.taken.bytes <+: o.text.bytes ∧ (o.flush small).sink.taken.size = Writer.capacity ∧
    ((Output.run {} [longLines, .flush small]).flush large).answer = .ok () ∧
    ((Output.run {} [longLines, .flush small]).flush large).sink.taken = o.text ∧
    ((Output.run {} [longLines, .flush small, .flush large]).flush large).answer = .error .flushed := by
  intro o small large
  have hsize : o.text.size = 6002 := by decide +kernel
  have hopen : ¬ Output.WrittenOut [longLines] := mt (Output.flushed_run [longLines]).2 (by decide)
  have hsmall := (flush_all_or_nothing [longLines] small rfl).2.2.1 hopen
  have hfailed : (o.flush small).answer ≠ .ok () := mt hsmall.1.1 fun hle => by
    have hle : o.text.size ≤ 5000 := hle 5000 rfl
    omega
  obtain ⟨hanswer, hbeginning, -, hlater⟩ := hsmall.2.2 hfailed
  have hskip : Output.run {} [longLines, .flush small] = o := hlater []
  have hlarge := (flush_all_or_nothing [longLines] large rfl).2.2.1 hopen
  have hwritten : (o.flush large).answer = .ok () := hlarge.1.2 fun limit hlimit => by
    obtain rfl : limit = 6002 := Option.mem_some.1 hlimit ▸ rfl
    exact hsize.le
  refine ⟨rfl, rfl, hanswer, hbeginning, by decide +kernel, hskip ▸ hwritten, ?_, ?_⟩
  · rw [hskip, (hlarge.2.1 hwritten).1]
  · exact (flush_all_or_nothing [longLines, .flush small, .flush large] large rfl).1.2
      ⟨[longLines, .flush small], large, [], rfl, hskip ▸ hwritten⟩

end AlgolMips.Mips
