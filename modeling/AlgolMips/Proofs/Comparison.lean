import AlgolMips.Proofs.GoldenFiles
import AlgolMips.Proofs.Texts
import Mathlib.Data.List.Forall2
import Mathlib.Logic.Relation

/-!
# Comparing up to ignored lines

Two texts are the same up to ignored lines if one becomes the other by inserting and deleting such lines. That is so
exactly where they are equal once these lines are left out (`withoutLines_eq_iff`), and leaving lines out goes text by text: it
depends on which texts are ignored, not on their order. So a verdict is equality of what was expected and what came out, up to
ignored lines and durations.
-/

namespace AlgolMips.Golden

open Text (join)

/-! ## Ignored lines -/

/-- A line in which one of the ignored texts stands. An empty text is never looked for. -/
def Ignored (ignored : List Text) (line : Text) : Prop := ∃ sub ∈ ignored, sub ≠ "" ∧ sub.bytes <:+: line.bytes

/-- Whether a line stays when the ignored ones are left out. -/
def stays (ignored : List Text) (line : Text) : Bool := !ignored.any fun sub => !sub.isEmpty && line.contains sub

theorem stays_eq_false_iff {ignored : List Text} {line : Text} : stays ignored line = false ↔ Ignored ignored line := by
  have hsub : ∀ sub : Text, (!sub.isEmpty && line.contains sub) = true ↔ sub ≠ "" ∧ sub.bytes <:+: line.bytes := by
    intro sub
    rw [Bool.and_eq_true, Bool.not_eq_true', ← Bool.not_eq_true, Text.isEmpty_iff]
    exact and_congr_right fun _ => ⟨Text.infix_of_contains, Text.contains_of_infix⟩
  simp only [stays, Bool.not_eq_false', List.any_eq_true, hsub, Ignored]

theorem stays_append (as bs : List Text) (line : Text) : stays (as ++ bs) line = (stays as line && stays bs line) := by
  simp [stays]

theorem stays_empty (ignored : List Text) : stays ignored "" = true := by
  rw [← Bool.not_eq_false, stays_eq_false_iff]
  rintro ⟨sub, -, hne, hin⟩
  exact hne (congrArg Text.mk (List.infix_nil.1 hin))

theorem lines_of_mem_lines {t line : Text} (h : line ∈ t.lines) : line.lines = [line] :=
  Text.split_of_not_mem (Text.not_mem_of_mem_split h)

theorem join_lines (t : Text) : join "\n" t.lines = t := Text.join_split t

/-- Leaving lines out needs no exception for an empty text or an empty list. -/
theorem withoutLines_eq (t : Text) (ignored : List Text) :
    withoutLines t ignored = join "\n" (t.lines.filter (stays ignored)) := by
  rw [withoutLines]
  split
  · next h =>
    have hall : ∀ line ∈ t.lines, stays ignored line = true := by
      rcases Bool.or_eq_true_iff.1 h with hnone | hempty
      · rw [List.isEmpty_iff.1 hnone]
        exact fun line _ => rfl
      · obtain rfl := Text.isEmpty_iff.1 hempty
        intro line hline
        rw [List.mem_singleton.1 hline]
        exact stays_empty ignored
    rw [List.filter_eq_self.2 hall, join_lines]
  · rfl

/-- Lines are left out of texts that are joined as they are of each. -/
theorem withoutLines_join (ts ignored : List Text) :
    withoutLines (join "\n" ts) ignored = join "\n" ((ts.flatMap Text.lines).filter (stays ignored)) := by
  by_cases hts : ts = []
  · rw [hts, List.flatMap_nil, List.filter_nil]
    exact if_pos (by simp [join, Text.isEmpty, Text.empty])
  · rw [withoutLines_eq]
    exact congrArg (fun ls => join "\n" (ls.filter (stays ignored))) (Text.split_join hts)

theorem flatMap_lines {ts : List Text} (h : ∀ t ∈ ts, t.lines = [t]) : ts.flatMap Text.lines = ts := by
  rw [List.flatMap_congr h, List.flatMap_singleton']

/-- Two lists of texts may be left out one after the other. -/
theorem withoutLines_append (t : Text) (as bs : List Text) :
    withoutLines t (as ++ bs) = withoutLines (withoutLines t as) bs := by
  have hlines : ∀ line ∈ t.lines.filter (stays as), line.lines = [line] := fun line hline =>
    lines_of_mem_lines (List.mem_of_mem_filter hline)
  have hboth : stays (as ++ bs) = fun line => stays bs line && stays as line :=
    funext fun line => (stays_append as bs line).trans (Bool.and_comm _ _)
  rw [withoutLines_eq, withoutLines_eq t as, withoutLines_join, flatMap_lines hlines, List.filter_filter, hboth]

/-- It does not matter how often and in which order texts are ignored. -/
theorem withoutLines_congr (t : Text) {as bs : List Text} (h : ∀ sub, sub ∈ as ↔ sub ∈ bs) :
    withoutLines t as = withoutLines t bs := by
  have hstays : stays as = stays bs := by
    funext line
    rw [← Bool.not_inj_iff, Bool.eq_iff_iff, Bool.not_eq_true', Bool.not_eq_true', stays_eq_false_iff, stays_eq_false_iff]
    simp only [Ignored, h]
  rw [withoutLines_eq, withoutLines_eq, hstays]

theorem withoutLines_withoutLines (t : Text) (ignored : List Text) :
    withoutLines (withoutLines t ignored) ignored = withoutLines t ignored := by
  rw [← withoutLines_append]
  exact withoutLines_congr t (by simp)

/-! ## The same up to ignored lines -/

/-- An ignored line is inserted before, between or behind some lines. Lines are what stands between line feeds, so a text that
ends with one has an empty last line; where there was no line, nothing but the new one is there. -/
inductive Padded (ignored : List Text) : Text → Text → Prop where
  | insert (before after : List Text) {line : Text} :
      Ignored ignored line → 0x0A ∉ line.bytes →
      Padded ignored (join "\n" (before ++ after)) (join "\n" (before ++ line :: after))

/-- One text becomes the other by inserting and deleting ignored lines. -/
def SameUpTo (ignored : List Text) : Text → Text → Prop := Relation.EqvGen (Padded ignored)

theorem Padded.withoutLines_eq {ignored : List Text} {s t : Text} (h : Padded ignored s t) :
    withoutLines s ignored = withoutLines t ignored := by
  obtain ⟨before, after, hline, hfeed⟩ := h
  next line =>
  have hlines : line.lines = [line] := Text.split_of_not_mem hfeed
  rw [withoutLines_join, withoutLines_join]
  simp [hlines, stays_eq_false_iff.2 hline]

/-- The lines that stay are reached by deleting the others one by one. -/
theorem sameUpTo_join_filter (ignored before : List Text) {ls : List Text} (h : ∀ l ∈ ls, 0x0A ∉ l.bytes) :
    SameUpTo ignored (join "\n" (before ++ ls.filter (stays ignored))) (join "\n" (before ++ ls)) := by
  induction ls generalizing before with
  | nil => exact .refl _
  | cons l ls ih =>
    obtain ⟨hl, hls⟩ := List.forall_mem_cons.1 h
    cases hstays : stays ignored l with
    | true => simpa [hstays] using ih (before ++ [l]) hls
    | false =>
      rw [List.filter_cons_of_neg (by simp [hstays])]
      exact .trans _ _ _ (ih before hls) (.rel _ _ (.insert before ls (stays_eq_false_iff.1 hstays) hl))

theorem sameUpTo_withoutLines (t : Text) (ignored : List Text) : SameUpTo ignored (withoutLines t ignored) t := by
  have hreached := sameUpTo_join_filter ignored [] fun l (hl : l ∈ t.lines) => Text.not_mem_of_mem_split hl
  rwa [List.nil_append, List.nil_append, join_lines, ← withoutLines_eq] at hreached

/-- Texts are the same up to ignored lines exactly if they are equal without them. -/
theorem withoutLines_eq_iff {ignored : List Text} {s t : Text} :
    withoutLines s ignored = withoutLines t ignored ↔ SameUpTo ignored s t := by
  constructor
  · intro h
    have hs := sameUpTo_withoutLines s ignored
    rw [h] at hs
    exact .trans _ _ _ (.symm _ _ hs) (sameUpTo_withoutLines t ignored)
  · intro h
    induction h with
    | rel s t hpadded => exact hpadded.withoutLines_eq
    | refl s => rfl
    | symm s t _ ih => exact ih.symm
    | trans s t u _ _ hfirst hsecond => exact hfirst.trans hsecond

/-! ## Agreeing results -/

/-- Two executions ended alike and, ignored lines apart, printed alike. -/
structure Execution.Alike (ignored : List Text) (expected actual : Execution) : Prop where
  exitCode : expected.exitCode = actual.exitCode
  timedOut : expected.timedOut = actual.timedOut
  stdout : withoutLines expected.stdout ignored = withoutLines actual.stdout ignored
  stderr : withoutLines expected.stderr ignored = withoutLines actual.stderr ignored

/-- Two results agree: the compiler ended and printed alike, the assembly has the same fingerprint and, where both have runs,
every expected run has one of its name that ended and printed alike. -/
structure Result.Alike (ignored : List Text) (expected actual : Result) : Prop where
  compile : Execution.Alike ignored expected.compile actual.compile
  assemblyHash : expected.assemblyHash = actual.assemblyHash
  runs : expected.runs ≠ [] → actual.runs ≠ [] → ∀ want ∈ expected.runs,
    ∃ got ∈ actual.runs, got.name = want.name ∧ Execution.Alike ignored want.result got.result

theorem Execution.differences_eq_nil_iff {ignored : List Text} {s : Subject} {expected actual : Execution} :
    Execution.differences ignored s expected actual = [] ↔ Execution.Alike ignored expected actual := by
  simp only [Execution.differences, List.append_eq_nil_iff, ite_eq_right_iff, reduceCtorEq, imp_false, not_or, not_not]
  constructor
  · rintro ⟨⟨⟨hcode, htime⟩, hout⟩, herr⟩
    exact ⟨hcode, htime, hout, herr⟩
  · exact fun h => ⟨⟨⟨h.exitCode, h.timedOut⟩, h.stdout⟩, h.stderr⟩

theorem mem_of_lastRun? {runs : List TestRun} {name : Text} {got : TestRun} (h : lastRun? runs name = some got) :
    got ∈ runs ∧ got.name = name :=
  ⟨List.mem_reverse.1 (List.mem_of_find?_eq_some h), by simpa using List.find?_some h⟩

theorem runDifferences_eq_nil_iff {ignored : List Text} {expected actual : List TestRun}
    (hnames : (actual.map TestRun.name).Nodup) :
    runDifferences ignored expected actual = [] ↔ (expected ≠ [] → actual ≠ [] → ∀ want ∈ expected,
      ∃ got ∈ actual, got.name = want.name ∧ Execution.Alike ignored want.result got.result) := by
  unfold runDifferences
  split
  · next hnone =>
    refine iff_of_true rfl fun hexpected hactual => ?_
    simp [hexpected, hactual] at hnone
  · next hboth =>
    have hboth : expected ≠ [] ∧ actual ≠ [] := by simpa using hboth
    simp only [hboth, List.flatMap_eq_nil_iff, ne_eq, not_false_eq_true, true_imp_iff]
    refine forall₂_congr fun want _ => ⟨fun hnil => ?_, fun ⟨got, hgot, hname, halike⟩ => ?_⟩
    · cases hlast : lastRun? actual want.name with
      | none => simp [hlast] at hnil
      | some got =>
        rw [hlast] at hnil
        obtain ⟨hgot, hname⟩ := mem_of_lastRun? hlast
        exact ⟨got, hgot, hname, Execution.differences_eq_nil_iff.1 hnil⟩
    · rw [← hname, lastRun?_of_mem hnames hgot]
      exact Execution.differences_eq_nil_iff.2 halike

theorem Result.differences_eq_nil_iff {ignored : List Text} {expected actual : Result}
    (hnames : (actual.runs.map TestRun.name).Nodup) :
    Result.differences ignored expected actual = [] ↔ Result.Alike ignored expected actual := by
  simp only [Result.differences, List.append_eq_nil_iff, ite_eq_right_iff, reduceCtorEq, imp_false, not_not,
    Execution.differences_eq_nil_iff, runDifferences_eq_nil_iff hnames]
  constructor
  · rintro ⟨⟨hcompile, hhash⟩, hruns⟩
    exact ⟨hcompile, hhash, hruns⟩
  · exact fun h => ⟨⟨h.compile, h.assemblyHash⟩, h.runs⟩

/-- What differs is reported in some words. -/
theorem Difference.report_ne_empty (d : Differ) (x : Difference) : x.report d ≠ "" := by
  have hfront : ∀ {a b : Text}, a ≠ "" → a ++ b ≠ "" := fun ha h => ha (Text.append_eq_empty_iff.1 h).1
  have hback : ∀ {a b : Text}, b ≠ "" → a ++ b ≠ "" := fun hb h => hb (Text.append_eq_empty_iff.1 h).2
  cases x with
  | ending s expected actual =>
    have hcons (l : Text) (ls : List Text) : Text.unlines (l :: ls) = l ++ "\n" ++ Text.unlines ls := rfl
    rw [report, hcons]
    exact hfront (hback (by decide))
  | stdout s expected actual => exact hfront (hback (by decide))
  | stderr s expected actual => exact hfront (hback (by decide))
  | assembly expected actual => exact hfront (by decide)
  | missingRun name => exact hback (by decide)

/-! ## Results the same up to ignored lines -/

/-- Executions that differ in ignored lines of what was printed, and in nothing else. -/
structure Execution.SameUpTo (ignored : List Text) (e e' : Execution) : Prop where
  stdout : Golden.SameUpTo ignored e.stdout e'.stdout
  stderr : Golden.SameUpTo ignored e.stderr e'.stderr
  others : { e' with stdout := e.stdout, stderr := e.stderr } = e

/-- Runs that differ in ignored lines of what was printed, and in nothing else. -/
structure TestRun.SameUpTo (ignored : List Text) (r r' : TestRun) : Prop where
  result : r.result.SameUpTo ignored r'.result
  others : { r' with result := r.result } = r

/-- Results that differ in ignored lines of what was printed, and in nothing else. -/
structure Result.SameUpTo (ignored : List Text) (r r' : Result) : Prop where
  compile : r.compile.SameUpTo ignored r'.compile
  runs : List.Forall₂ (TestRun.SameUpTo ignored) r.runs r'.runs
  others : { r' with compile := r.compile, runs := r.runs } = r

section Congruence

variable {ignored : List Text}

theorem SameUpTo.symm {s t : Text} (h : SameUpTo ignored s t) : SameUpTo ignored t s := Relation.EqvGen.symm _ _ h

theorem Execution.SameUpTo.symm {e e' : Execution} (h : e.SameUpTo ignored e') : e'.SameUpTo ignored e where
  stdout := h.stdout.symm
  stderr := h.stderr.symm
  others := by rw [← h.others]

theorem TestRun.SameUpTo.symm {r r' : TestRun} (h : r.SameUpTo ignored r') : r'.SameUpTo ignored r where
  result := h.result.symm
  others := by rw [← h.others]

theorem TestRun.SameUpTo.name_eq {r r' : TestRun} (h : r.SameUpTo ignored r') : r'.name = r.name :=
  show { r' with result := r.result }.name = r.name from congrArg TestRun.name h.others

theorem Result.SameUpTo.symm {r r' : Result} (h : r.SameUpTo ignored r') : r'.SameUpTo ignored r where
  compile := h.compile.symm
  runs := h.runs.flip.imp fun _ _ hrun => hrun.symm
  others := by rw [← h.others]

theorem Execution.SameUpTo.alike {e e' : Execution} (h : e.SameUpTo ignored e') : Execution.Alike ignored e e' where
  exitCode := (congrArg Execution.exitCode h.others).symm
  timedOut := (congrArg Execution.timedOut h.others).symm
  stdout := withoutLines_eq_iff.2 h.stdout
  stderr := withoutLines_eq_iff.2 h.stderr

theorem Execution.Alike.trans {e f g : Execution} (h : Execution.Alike ignored e f) (h' : Execution.Alike ignored f g) :
    Execution.Alike ignored e g where
  exitCode := h.exitCode.trans h'.exitCode
  timedOut := h.timedOut.trans h'.timedOut
  stdout := h.stdout.trans h'.stdout
  stderr := h.stderr.trans h'.stderr

theorem exists_of_mem_of_forall₂ {rs rs' : List TestRun} (h : List.Forall₂ (TestRun.SameUpTo ignored) rs rs')
    {r' : TestRun} (hr' : r' ∈ rs') : ∃ r ∈ rs, r.SameUpTo ignored r' := by
  induction h with
  | nil => cases hr'
  | cons hrun _ ih =>
    rcases List.mem_cons.1 hr' with rfl | hmem
    · exact ⟨_, List.mem_cons_self, hrun⟩
    · obtain ⟨r, hr, hsame⟩ := ih hmem
      exact ⟨r, List.mem_cons_of_mem _ hr, hsame⟩

/-- Inserting and deleting ignored lines on both sides leaves results in agreement. -/
theorem Result.Alike.of_sameUpTo {expected expected' actual actual' : Result}
    (h : Result.Alike ignored expected actual) (hexpected : expected.SameUpTo ignored expected')
    (hactual : actual.SameUpTo ignored actual') : Result.Alike ignored expected' actual' where
  compile := hexpected.compile.symm.alike.trans (h.compile.trans hactual.compile.alike)
  assemblyHash :=
    (congrArg Result.assemblyHash hexpected.others).trans
      (h.assemblyHash.trans (congrArg Result.assemblyHash hactual.others).symm)
  runs := by
    intro _ hne want' hwant'
    obtain ⟨want, hwant, hsame⟩ := exists_of_mem_of_forall₂ hexpected.runs hwant'
    obtain ⟨other', hother'⟩ := List.exists_mem_of_ne_nil _ hne
    obtain ⟨other, hother, -⟩ := exists_of_mem_of_forall₂ hactual.runs hother'
    obtain ⟨got, hgot, hname, halike⟩ :=
      h.runs (List.ne_nil_of_mem hwant) (List.ne_nil_of_mem hother) want hwant
    obtain ⟨got', hgot', hback⟩ := exists_of_mem_of_forall₂ hactual.symm.runs hgot
    refine ⟨got', hgot', hback.name_eq.symm.trans (hname.trans hsame.name_eq.symm), ?_⟩
    exact hsame.symm.result.alike.trans (halike.trans hback.symm.result.alike)

theorem Result.SameUpTo.map_name {r r' : Result} (h : r.SameUpTo ignored r') :
    r'.runs.map TestRun.name = r.runs.map TestRun.name := by
  rw [← List.forall₂_eq_eq_eq, List.forall₂_map_left_iff, List.forall₂_map_right_iff]
  exact h.symm.runs.imp fun _ _ hrun => hrun.symm.name_eq

end Congruence

/-! ## Verdicts -/

theorem judge_status (d : Differ) (ignored : List Text) (file : Text) (expected actual : Result) :
    (judge d ignored file expected actual).status =
      if Result.differences ignored expected actual = [] then .pass else .fail := by
  unfold judge
  cases Result.differences ignored expected actual <;> rfl

theorem judge_diff_ne_empty (d : Differ) {ignored : List Text} {file : Text} {expected actual : Result}
    (h : Result.differences ignored expected actual ≠ []) : (judge d ignored file expected actual).diff ≠ "" := by
  rw [judge, if_neg (by simpa using h)]
  obtain ⟨x, rest, hdiffers⟩ := List.exists_cons_of_ne_nil h
  rw [hdiffers]
  exact fun hempty => x.report_ne_empty d (Text.append_eq_empty_iff.1 hempty).1

/-- A verdict is equality up to ignored lines. It is a pass exactly if the results agree, and otherwise a failure that says
what differs, in whatever way differences are shown; and it stays the same however ignored lines are inserted and deleted on both sides. Texts agree exactly if they
are the same up to ignored lines. Lines are left out for two lists as for one after the other, so neither the order of the
ignored texts nor repetition counts, and leaving lines out twice is leaving them out once. -/
theorem verdict_up_to_ignored_lines (d : Differ) (list file : Text) (expected actual : Result)
    (hnames : (actual.runs.map TestRun.name).Nodup) :
    let ignored := ignoredTexts list
    let verdict := judge d ignored file expected actual
    (verdict.status = .pass ↔ Result.Alike ignored expected actual) ∧
    (¬ Result.Alike ignored expected actual → verdict.status = .fail ∧ verdict.diff ≠ "") ∧
    (∀ expected' actual', expected.SameUpTo ignored expected' → actual.SameUpTo ignored actual' →
      (judge d ignored file expected' actual').status = verdict.status) ∧
    (∀ (ignored : List Text) s t, withoutLines s ignored = withoutLines t ignored ↔ SameUpTo ignored s t) ∧
    (∀ s as bs, withoutLines s (as ++ bs) = withoutLines (withoutLines s as) bs) ∧
    (∀ s as bs, (∀ sub, sub ∈ as ↔ sub ∈ bs) → withoutLines s as = withoutLines s bs) ∧
    ∀ s as, withoutLines (withoutLines s as) as = withoutLines s as := by
  intro ignored verdict
  have hstatus := fun expected => judge_status d ignored file expected
  refine ⟨?_, ?_, ?_, fun _ _ _ => withoutLines_eq_iff, withoutLines_append, fun s as bs => withoutLines_congr s,
    withoutLines_withoutLines⟩
  · rw [hstatus, ite_eq_left_iff, ← Result.differences_eq_nil_iff hnames]
    simp
  · rw [hstatus, ← Result.differences_eq_nil_iff hnames]
    exact fun hdiffer => ⟨if_neg hdiffer, judge_diff_ne_empty d hdiffer⟩
  · intro expected' actual' hexpected hactual
    have hnames' : (actual'.runs.map TestRun.name).Nodup := hactual.map_name ▸ hnames
    have halike : Result.Alike ignored expected' actual' ↔ Result.Alike ignored expected actual :=
      ⟨fun h => h.of_sameUpTo hexpected.symm hactual.symm, fun h => h.of_sameUpTo hexpected hactual⟩
    rw [hstatus, hstatus]
    refine if_congr ?_ rfl rfl
    rw [Result.differences_eq_nil_iff hnames', Result.differences_eq_nil_iff hnames, halike]

/-- A result with one run. -/
def quietResult : Result where
  compile := { stdout := "a\nb\n", exitCode := 1 }
  runs := [{ name := "small", input := "3\n", result := { stdout := "7" } }]

/-- The same result where durations were printed, at the beginning, in between and at the end. -/
def timedResult : Result where
  compile := { stdout := "0ms\na\n1ms\nb\n", stderr := "2ms", exitCode := 1 }
  runs := [{ name := "small", input := "3\n", result := { stdout := "7\n3ms" } }]

/-- Without the lines about durations the two results agree; another exit code fails. -/
theorem timedResult_verdict :
    quietResult.SameUpTo (ignoredTexts "x,ms,") timedResult ∧
      (judge plainDiffer (ignoredTexts "x,ms,") "a.alw" quietResult timedResult).status = .pass ∧
      (judge plainDiffer (ignoredTexts "x,ms,") "a.alw" {} timedResult).status = .fail := by
  have hsame : quietResult.SameUpTo (ignoredTexts "x,ms,") timedResult := by
    refine ⟨⟨?_, ?_, rfl⟩, .cons ⟨⟨?_, ?_, rfl⟩, rfl⟩ .nil, rfl⟩ <;> exact withoutLines_eq_iff.1 (by decide)
  obtain ⟨hpass, -, hkept, -⟩ := verdict_up_to_ignored_lines plainDiffer "x,ms," "a.alw" quietResult quietResult (by decide)
  obtain ⟨-, hfail, -⟩ := verdict_up_to_ignored_lines plainDiffer "x,ms," "a.alw" {} timedResult (by decide)
  refine ⟨hsame, ?_, (hfail fun h => nomatch h.compile.exitCode).1⟩
  rw [hkept quietResult timedResult ⟨⟨.refl _, .refl _, rfl⟩, .cons ⟨⟨.refl _, .refl _, rfl⟩, rfl⟩ .nil, rfl⟩ hsame]
  exact hpass.2 ((Result.differences_eq_nil_iff (by decide)).1 (Result.differences_self _ (by decide)))

end AlgolMips.Golden
