import AlgolMips.Proofs.Simulation

/-!
# Correctness of the code

A plain program that is lowered without a diagnostic gives lines that can be assembled. Started at `main` with any
content of the frame, they print what the program prints between the two announcements, read what it reads, and stop
(`prints_of_runs`).

The prolog and the postlog are the same for all programs. They define the labels that are not numbered, so that no label
of the lines between is defined again, and they bring the fixed strings.
-/

namespace AlgolMips

open Gen Mips

/-- From its start a program prints a text, leaves a rest of its input, and stops. -/
def Mips.Prints (o : Overflow) (code : List Line) (d : Data) (rest : List Word) (output : Text) : Prop :=
  ∃ pc d', target? code .main = some pc ∧ Reaches o code (.running pc d) (.stopped d') ∧ d'.input = rest ∧
    d'.output = output

/-- Every cell with the content that its slot has at the start. -/
def SymbolTable.load (t : SymbolTable) (frame : Int64 → Word) (c : Cell) : Value :=
  .number ((t.slot? c).elim 0 frame)

/-! ## The lines of a program -/

/-- The state in which a lowering starts. -/
def GenState.start : GenState := { frame := ⟨0, 4⟩ }

/-- The lines of a program. -/
def Program.code (p : Program) : List Line := prolog ++ (p.body.lines .start ++ postlog)

theorem Program.lines_lower (p : Program) : (p.lower {}).lines .start = p.code := p.lines_lower_eq {} .start

theorem Program.state_lower (p : Program) : (p.lower {} .start).state = (p.body .start).state := by
  have heof : (({} : Token).isEof) = true := rfl
  simp [Program.lower, heof]

theorem lines_lower {p : Program} (hv : p.Valid) : (lower 4 { tokens := p.tokens }).lines = p.code := by
  rw [lower_tokens hv, ← p.lines_lower]
  rfl

theorem table_lower {p : Program} (hv : p.Valid) :
    (lower 4 { tokens := p.tokens }).table = (p.body .start).state.table := by
  rw [lower_tokens hv, ← p.state_lower]
  rfl

theorem Program.unambiguous_code (p : Program) : Unambiguous p.code := (p.lays_body .start).unambiguous

/-! ## Slots of a program -/

theorem Tally.start : Tally GenState.start.frame GenState.start.table 0 := by
  have hnone : ∀ c v, ¬ GenState.start.table.HasCell c v := by
    rintro c v ⟨s, hs, _, hat⟩
    cases List.mem_singleton.1 hs
    cases hat
  exact ⟨rfl, by decide, by decide, fun c v hv => absurd hv (hnone c v), fun c v _ _ hv => absurd hv (hnone c v)⟩

theorem Program.lines_body_block (opening : Token) (inside : Body) (closing stop : Token) (s : GenState) :
    (Program.block opening inside closing stop).body.lines s =
      inside.lower.lines { s with table := s.table.enter } := by
  simp [Program.body, lines_block]

theorem Program.state_body_block (opening : Token) (inside : Body) (closing stop : Token) (s : GenState) :
    ((Program.block opening inside closing stop).body s).state =
      { (inside.lower { s with table := s.table.enter }).state with
        table := (inside.lower { s with table := s.table.enter }).state.table.leave } := by
  simp [Program.body, state_block]

theorem Program.lines_body_bare (stop : Token) (s : GenState) : (Program.bare stop).body.lines s = [] := by
  simp [Program.body]

theorem Program.state_body_bare (stop : Token) (s : GenState) : ((Program.bare stop).body s).state = s := by
  simp [Program.body]

/-- What is known of a plain program that leaves no diagnostic. -/
structure Program.Sound (p : Program) : Prop where
  valid : p.Valid
  names : p.Scoped
  typed : p.Typed
  plain : p.Plain
  bound : p.slots < 2 ^ 32

/-- The inside of a sound program is a statement list of it, reached before any slot is taken. -/
theorem Program.Sound.situated {opening closing stop : Token} {inside : Body}
    (h : (Program.block opening inside closing stop).Sound) :
    Situated ((Program.block opening inside closing stop).body .start).state.table inside.slots inside
      { GenState.start with table := GenState.start.table.enter } 0 := by
  have henter : GenState.start.table.enter.env = Env.initial.enter := SymbolTable.env_enter _
  exact {
    valid := h.valid.2.1
    names := by rw [henter]; exact h.names
    typed := by rw [henter]; exact h.typed
    plain := by rw [henter]; exact h.plain
    tally := Tally.start.enter
    le := Nat.le_of_eq (Nat.zero_add _)
    grows := by
      rw [Program.state_body_block]
      exact .of_iff (fun _ _ => SymbolTable.hasCell_leave) _ _ }

/-- A sound program takes the slots that it is counted for. -/
theorem Program.Sound.tally_body {p : Program} (h : p.Sound) :
    Tally (p.body .start).state.frame (p.body .start).state.table p.slots := by
  cases p with
  | bare stop =>
    rw [Program.state_body_bare]
    exact Tally.start
  | block opening inside closing stop =>
    have hs := h.situated
    have htally := (inside.tally_lower hs.valid _ hs.names hs.typed hs.plain (by rw [Nat.zero_add]; exact h.bound)
      hs.tally).1
    rw [Nat.zero_add] at htally
    rw [Program.state_body_block]
    exact htally.leave

/-! ## Whole programs -/

theorem Program.mem_code_of_fixed (p : Program) {l : Label} {v : Text} (h : (l, v) ∈ fixedStrings) :
    Line.asciiz l 10 v ∈ p.code := by
  refine List.mem_append_right _ (List.mem_append_right _ (List.mem_append_right _ ?_))
  exact List.mem_map.2 ⟨(l, v), h, rfl⟩

theorem Program.constant?_of_fixed (p : Program) {l : Label} {v : Text} (h : (l, v) ∈ fixedStrings) :
    constant? p.code l = some v :=
  constant?_of_mem p.unambiguous_code (p.mem_code_of_fixed h)

theorem Program.Sound.linked {p : Program} (h : p.Sound) :
    Linked p.code (p.body .start).state.table p.slots where
  unambiguous := p.unambiguous_code
  lineEnd := p.constant?_of_fixed (by decide)
  bound := h.bound
  tally := by
    have htally := h.tally_body
    rwa [htally.frame] at htally

/-- Every run of a sound program is followed by the lines between its prolog and its postlog. -/
theorem Program.Sound.follows {p : Program} (h : p.Sound) {o : Overflow} {lead : Text} {w w' : World}
    (hrun : p.Runs o w w') :
    Follows o p.code (p.body .start).state.table lead (p.body.lines .start) w w' := by
  cases p with
  | bare stop =>
    cases hrun
    rw [Program.lines_body_bare]
    exact .nil _
  | block opening inside closing stop =>
    rw [Program.lines_body_block]
    exact Exec.follows hrun h.linked (SymbolTable.env_enter _) h.situated

theorem resolves_prolog {code : List Line} (h : ∃ column v, Line.asciiz .programStart column v ∈ code) :
    Resolves code prolog := by
  rw [prolog]
  simp only [resolves_append]
  refine ⟨⟨?_, resolves_call _⟩, by simp [Resolves, Line.Resolved]⟩
  simpa [Resolves, Line.Resolved] using h

theorem resolves_postlog {code : List Line} (h : ∃ column v, Line.asciiz .programEnd column v ∈ code) :
    Resolves code postlog := by
  rw [postlog]
  simp only [resolves_append]
  refine ⟨⟨⟨⟨?_, resolves_call _⟩, resolves_call _⟩, by simp [Resolves, Line.Resolved]⟩, ?_⟩
  · simpa [Resolves, Line.Resolved] using h
  · simp [Resolves, fixedStrings, Line.Resolved]

theorem Program.Sound.assembles {p : Program} (h : p.Sound) : Assembles p.code where
  placed := by
    have hprolog : placeLines .text prolog = some .text := rfl
    have hpostlog : placeLines .text postlog = some .data := rfl
    simp [Program.code, hprolog, (p.lays_body .start).placed, hpostlog]
  unambiguous := p.unambiguous_code
  resolved := by
    have hbody : Resolves p.code (p.body.lines .start) := by
      cases p with
      | bare stop => simp [Program.lines_body_bare, Resolves]
      | block opening inside closing stop =>
        have hs := h.situated
        rw [Program.lines_body_block]
        refine inside.resolves_lower hs.valid _ hs.names hs.typed hs.plain ?_
          ⟨10, "\\n", Program.mem_code_of_fixed _ (by decide)⟩
        rw [← Program.lines_body_block opening inside closing stop]
        exact (CodeAt.of_append prolog _ postlog).subset
    have hall : Resolves p.code (prolog ++ (p.body.lines .start ++ postlog)) :=
      resolves_append.2 ⟨resolves_prolog ⟨10, "Program Start\\n", p.mem_code_of_fixed (by decide)⟩,
        resolves_append.2 ⟨hbody, resolves_postlog ⟨10, "Program End\\n", p.mem_code_of_fixed (by decide)⟩⟩⟩
    exact hall

/-! ## Start and end -/

section

variable {o : Overflow} {code : List Line} {pc : Nat} {d : Data}

/-- From `main`, the prolog sets the frame pointer and prints its announcement. -/
theorem reaches_prolog (hcode : CodeAt code pc prolog) (hc : constant? code .programStart = some "Program Start\\n")
    (hsp : d.get .sp = .base) :
    ∃ d', Reaches o code (.running (pc + 3) d) (.running (pc + prolog.length) d') ∧ d'.get .fp = .base ∧
      d'.frame = d.frame ∧ d'.input = d.input ∧ d'.output = d.output ++ "Program Start\n" := by
  have htext : unescape (Text.ofString "Program Start\\n").bytes = (Text.ofString "Program Start\n").bytes := by decide
  have hprint := run_printConstant (o := o) hc htext (d.set .fp .base)
  have hrun : runLines o code (prolog.drop 3) d =
      some ((((d.set .fp .base).set .a0 (.address .programStart)).set .v0 (.number 4)).print "Program Start\n") := by
    simp [prolog, Line.run, Instr.exec, hsp, hc, hprint]
  exact ⟨_, hcode.tail.tail.tail.reaches hrun, by simp⟩

theorem reaches_exit (hcode : CodeAt code pc (call .exit)) :
    Reaches o code (.running pc d) (.stopped (d.set .v0 (.number 10))) := by
  have hword : word? (Text.ofInt Service.exit.code) = some 10 := by decide +kernel
  have hservice : Service.ofWord? 10#32 = some .exit := by decide
  have hload : step o code (.running pc d) = some (.running (pc + 1) (d.set .v0 (.number 10))) :=
    CodeAt.step_of_run hcode.head (by simp [Line.run, Instr.exec, hword])
  refine .head hload (.single ?_)
  have hsyscall := hcode.tail.head
  simp [step, hsyscall, Instr.exec, hservice, Service.serve]

/-- The postlog prints its announcement and stops. -/
theorem reaches_postlog (hcode : CodeAt code pc postlog) (hc : constant? code .programEnd = some "Program End\\n") :
    ∃ d', Reaches o code (.running pc d) (.stopped d') ∧ d'.input = d.input ∧
      d'.output = d.output ++ "Program End\n" := by
  have htext : unescape (Text.ofString "Program End\\n").bytes = (Text.ofString "Program End\n").bytes := by decide
  have hprint := run_printConstant (o := o) hc htext d
  have hrun : runLines o code ([.blank, .banner "Postlog: next 8 lines will end all programs",
      .instr (.loadAddr .a0 .programEnd)] ++ call .printString) d =
        some (((d.set .a0 (.address .programEnd)).set .v0 (.number 4)).print "Program End\n") := by
    simp [Line.run, Instr.exec, hc, hprint]
  have hannounce := hcode.left.left.left.reaches hrun
  exact ⟨_, hannounce.trans (reaches_exit hcode.left.left.right), rfl, rfl⟩

end

/-- Cells that are loaded from the frame match it. -/
theorem SymbolTable.load_of_hasCell {f : Frame} {t : SymbolTable} {n : Nat} (h : Tally f t n) {c : Cell} {v : Variable}
    (hv : t.HasCell c v) (frame : Int64 → Word) : t.load frame c = .number (frame v.offset) := by
  simp [load, h.slot?_of_hasCell hv]

/-- A sound program, started at `main`, prints what its source prints, between the two announcements. -/
theorem Program.Sound.prints {p : Program} (h : p.Sound) {o : Overflow} {regs : Reg → Content} (hsp : regs .sp = .base)
    (hi lo : Word) (frame : Int64 → Word) {input : List Word} {w : World}
    (hrun : p.Runs o ⟨(p.body .start).state.table.load frame, input, ""⟩ w) :
    Prints o p.code (.start regs hi lo frame input) w.input ("Program Start\n" ++ w.output ++ "Program End\n") := by
  have hprolog : CodeAt p.code 0 prolog := CodeAt.of_append [] prolog _
  have hbody : CodeAt p.code prolog.length (p.body.lines .start) := CodeAt.of_append prolog _ postlog
  have hpostlog : CodeAt p.code (prolog.length + (p.body.lines .start).length) postlog := by
    have hrest : CodeAt p.code prolog.length (p.body.lines .start ++ postlog) := by
      have := CodeAt.of_append prolog (p.body.lines .start ++ postlog) []
      rwa [List.append_nil] at this
    exact hrest.right
  have hmain : target? p.code .main = some 3 :=
    target?_of_codeAt h.linked.unambiguous hprolog.tail.tail.tail.head
  obtain ⟨d₁, hfirst, hbase, hframe, hinput, houtput⟩ := reaches_prolog (o := o) (d := .start regs hi lo frame input)
    hprolog (p.constant?_of_fixed (by decide)) (by simpa [Data.get, Data.start] using hsp)
  rw [Nat.zero_add, Nat.zero_add] at hfirst
  -- behind the prolog the cells hold what their slots held at the start, and nothing of the source is printed yet
  have hmirrors : Mirrors p.code (p.body .start).state.table "Program Start\n"
      ⟨(p.body .start).state.table.load frame, input, ""⟩ d₁ :=
    { base := hbase
      cells := by
        intro c v hv
        show Represents p.code ((p.body .start).state.table.load frame c) (d₁.frame v.offset)
        rw [SymbolTable.load_of_hasCell h.tally_body hv, hframe]
        rfl
      input := hinput
      output := houtput }
  obtain ⟨d₂, hsecond, hd₂⟩ := h.follows hrun prolog.length d₁ hbody hmirrors
  obtain ⟨d₃, hlast, hinput₃, houtput₃⟩ :=
    reaches_postlog (o := o) (d := d₂) hpostlog (p.constant?_of_fixed (by decide))
  exact ⟨3, d₃, hmain, (hfirst.trans hsecond).trans hlast, hinput₃.trans hd₂.input,
    by rw [houtput₃, hd₂.output]⟩

theorem sound_of_silent {p : Program} (hv : p.Valid) (hc : p.Complete)
    (hsilent : (lower 4 { tokens := p.tokens }).diagnostics = []) (hp : p.Plain) (hn : p.slots < 2 ^ 32) :
    p.Sound := by
  have hclear : Clear Fault.Any (p.lower {}) { frame := { wordSize := 4 } } := by
    have := (clear_lower_iff Fault.Any 4 { tokens := p.tokens }).1 (by simp [hsilent])
    rwa [show TokenSource.parse { tokens := p.tokens } = (p, []) from Parse.program_tokens p hv] at this
  have hs : p.Scoped := p.scoped_of_clear (fun _ => trivial) hv {} 4 hclear
  exact ⟨hv, hs, (p.silent_iff_typed hv hc hs {} 4).1 hclear, hp, hn⟩

/-- A complete plain program that is lowered without a diagnostic gives lines that can be assembled. Whatever the frame
and the registers but the stack pointer hold at the start: if the program, with the contents of its slots in its cells,
has a complete run, then the lines, started at `main`, stop after they have printed what the run prints and read what it
reads. -/
theorem prints_of_runs (o : Overflow) (p : Program) (hv : p.Valid) (hc : p.Complete)
    (hsilent : (lower 4 { tokens := p.tokens }).diagnostics = []) (hp : p.Plain) (hn : p.slots < 2 ^ 32)
    (regs : Reg → Content) (hsp : regs .sp = .base) (hi lo : Word) (frame : Int64 → Word) (input : List Word)
    (w : World) (hrun : p.Runs o ⟨(lower 4 { tokens := p.tokens }).table.load frame, input, ""⟩ w) :
    Assembles (lower 4 { tokens := p.tokens }).lines ∧
      Prints o (lower 4 { tokens := p.tokens }).lines (.start regs hi lo frame input) w.input
        ("Program Start\n" ++ w.output ++ "Program End\n") := by
  have hsound := sound_of_silent hv hc hsilent hp hn
  rw [table_lower hv] at hrun
  rw [lines_lower hv]
  exact ⟨hsound.assembles, hsound.prints hsp hi lo frame hrun⟩

/-- A loop whose block has a variable of its own, which is added to without ever being set. -/
def countdownLoop : Stmt :=
  .whileDo (.plain .while "while")
    (.term (.relation (.compare (.name (.plain .ident "k")) (.plain .relOp ">") (.literal (.plain .literal "0")))))
    (.plain .do "do")
    (.block (.plain .begin "begin")
      (.next (.declare (.plain .typeName "integer") (.plain .ident "n")) (.plain .semi ";")
        (.next (.assign (.plain .ident "n") (.plain .assign ":=")
            (.add (.term (.relation (.factor (.name (.plain .ident "n"))))) (.plain .addOp "+")
              (.relation (.factor (.name (.plain .ident "k")))))) (.plain .semi ";")
          (.next (.assign (.plain .ident "k") (.plain .assign ":=")
              (.add (.term (.relation (.factor (.name (.plain .ident "k"))))) (.plain .addOp "-")
                (.relation (.factor (.literal (.plain .literal "2")))))) (.plain .semi ";")
            (.next (.write (.plain .inout "write") (.plain .lparen "(")
                (.term (.relation (.factor (.name (.plain .ident "s"))))) (.plain .rparen ")")) (.plain .semi ";")
              (.last (.write (.plain .inout "writeln") (.plain .lparen "(")
                (.term (.relation (.factor (.name (.plain .ident "n"))))) (.plain .rparen ")")))))))
      (.plain .end "end"))

/-- A program that reads a number, sets a text, and runs the loop. -/
def countdownProgram : Program :=
  .block (.plain .begin "begin")
    (.next (.declare (.plain .typeName "integer") (.plain .ident "k")) (.plain .semi ";")
      (.next (.declare (.plain .typeName "string") (.plain .ident "s")) (.plain .semi ";")
        (.next (.assign (.plain .ident "s") (.plain .assign ":=")
            (.term (.relation (.factor (.literal (.plain .literal "\"n=\"")))))) (.plain .semi ";")
          (.next (.read (.plain .inout "read") (.plain .lparen "(") (some (.plain .ident "k")) (.plain .rparen ")"))
              (.plain .semi ";")
            (.last countdownLoop)))))
    (.plain .end "end") (.plain .dot ".")

/-- Where all slots hold seven at the start and three is read, the variable of the loop goes from seven to ten, is found
again as ten, and goes to eleven. -/
theorem countdownProgram_prints :
    (lower 4 { tokens := countdownProgram.tokens }).diagnostics = [] ∧
      Assembles (lower 4 { tokens := countdownProgram.tokens }).lines ∧
      Prints .traps (lower 4 { tokens := countdownProgram.tokens }).lines
        (.start (fun _ => .base) 0 0 (fun _ => 7) [3]) [] "Program Start\nn=10\nn=11\nProgram End\n" := by
  have hv : countdownProgram.Valid := by
    have hwrite : Text.ofString "write" ≠ "read" := by decide
    have hwriteln : Text.ofString "writeln" ≠ "read" := by decide
    simp [countdownProgram, countdownLoop, Program.Valid, Code.Valid, Expr.Valid, Token.plain, hwrite, hwriteln]
  have hc : countdownProgram.Complete := by
    simp [countdownProgram, countdownLoop, Program.Complete, Code.Complete, Expr.Complete]
  have hsilent : (lower 4 { tokens := countdownProgram.tokens }).diagnostics = [] := by
    rw [lower_tokens hv]
    decide +kernel
  have hp : countdownProgram.Plain :=
    ⟨trivial, trivial, ⟨by decide +kernel, by decide +kernel⟩, trivial,
      ⟨trivial, ⟨by decide +kernel, by decide +kernel⟩, .literal⟩,
      trivial, ⟨trivial, trivial⟩, ⟨trivial, by decide +kernel, by decide +kernel⟩, trivial, trivial⟩
  have hrun : ∃ w, countdownProgram.Runs .traps
      ⟨(countdownProgram.body .start).state.table.load (fun _ => 7), [3], ""⟩ w ∧ w.input = [] ∧
      w.output = "n=10\nn=11\n" := by
    refine ⟨_, .next .declare (.next .declare (.next
      (.assign (d := ⟨"s", .string, 1, 1⟩) (v := .text "n=") (by decide +kernel) (by decide +kernel)) (.next
      (.read (d := ⟨"k", .integer, 1, 0⟩) (a := 3) (by decide +kernel) rfl) (.last
      -- the loop is entered with three and with one, and left with minus one
      (.whileTrue (a := 1) (by decide +kernel) (by decide) (.block (.next .declare (.next
        (.assign (d := ⟨"n", .integer, 2, 0⟩) (v := .number 10) (by decide +kernel) (by decide +kernel)) (.next
        (.assign (d := ⟨"k", .integer, 1, 0⟩) (v := .number 1) (by decide +kernel) (by decide +kernel)) (.next
        (.write (v := .text "n=") (by decide +kernel)) (.last (.write (v := .number 10) (by decide +kernel))))))))
      (.whileTrue (a := 1) (by decide +kernel) (by decide) (.block (.next .declare (.next
        (.assign (d := ⟨"n", .integer, 2, 0⟩) (v := .number 11) (by decide +kernel) (by decide +kernel)) (.next
        (.assign (d := ⟨"k", .integer, 1, 0⟩) (v := .number (-1)) (by decide +kernel) (by decide +kernel)) (.next
        (.write (v := .text "n=") (by decide +kernel)) (.last (.write (v := .number 11) (by decide +kernel))))))))
      (.whileFalse (by decide +kernel)))))))), rfl, by decide +kernel⟩
  obtain ⟨w, hruns, hinput, houtput⟩ := hrun
  rw [← table_lower hv] at hruns
  obtain ⟨hassembles, hprints⟩ := prints_of_runs .traps _ hv hc hsilent hp (by decide +kernel) (fun _ => .base) rfl 0 0
    (fun _ => 7) [3] w hruns
  rw [hinput, houtput] at hprints
  exact ⟨hsilent, hassembles, hprints⟩

end AlgolMips
