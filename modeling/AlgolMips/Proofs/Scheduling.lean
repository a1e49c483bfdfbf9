import AlgolMips.Proofs.GoldenFiles
import AlgolMips.Proofs.Pool
import AlgolMips.Proofs.Texts
import Mathlib.Data.List.Nodup
import Mathlib.Data.List.Sort

/-!
# The outcome of a suite does not depend on its schedule

Whatever run of steps a pool goes through, the results at the end are the verdicts of the plan, so sorted by file they are
one list: the one that carrying out the plan from left to right gives. Of this list the rest can be said once and for all.
Every source has one verdict in it. A source is said to be identical to another iff the other is the first one before it
that is neither skipped nor unreadable and has the same fingerprint (`lookup_seenAfter`). The counts of the summary add up,
because no test ends in a status of its own (`ownVerdict_test`), and the status of the suite goes by them, because the
report by file has each verdict once (`byFile_perm`).
-/

namespace AlgolMips

/-! ## The order of texts -/

namespace Text

/-- Texts are ordered as their lists of bytes are. -/
theorem le_iff {a b : Text} : a.le b ↔ a.bytes.le b.bytes := by
  have hgo (xs ys : List UInt8) : le.go xs ys ↔ xs.le ys := by
    induction xs generalizing ys with
    | nil => simp [le.go, List.le]
    | cons x xs ih =>
      cases ys with
      | nil => simp [le.go, List.le]
      | cons y ys =>
        rw [le.go, Bool.or_eq_true, Bool.and_eq_true, beq_iff_eq, decide_eq_true_iff, ih ys]
        exact List.cons_le_cons_iff.symm
  exact hgo a.bytes b.bytes

theorem le_total (a b : Text) : a.le b || b.le a := by
  rw [Bool.or_eq_true, le_iff, le_iff]
  exact List.le_total a.bytes b.bytes

theorem le_trans {a b c : Text} (h : a.le b) (h' : b.le c) : a.le c :=
  le_iff.2 (List.le_trans (le_iff.1 h) (le_iff.1 h'))

theorem le_antisymm {a b : Text} (h : a.le b) (h' : b.le a) : a = b :=
  congrArg mk (List.le_antisymm (le_iff.1 h) (le_iff.1 h'))

end Text

namespace Suite

open Golden

/-- Verdicts by file. -/
def sorted (vs : List Verdict) : List Verdict := vs.mergeSort fun v w => v.file.le w.file

theorem sorted_perm (vs : List Verdict) : (sorted vs).Perm vs := List.mergeSort_perm _ _

/-- With one verdict for each file there is only one way to sort. -/
theorem eq_sorted {vs ws : List Verdict} (hfiles : (vs.map Verdict.file).Nodup) (hperm : ws.Perm vs)
    (hsorted : ws.Pairwise fun v w => v.file.le w.file) : ws = sorted vs := by
  refine List.Perm.eq_of_pairwise (fun v w hv hw h h' => ?_) hsorted ?_ (hperm.trans (sorted_perm vs).symm)
  · exact List.inj_on_of_nodup_map hfiles (hperm.subset hv) ((sorted_perm vs).subset hw) (Text.le_antisymm h h')
  · have htrans (u v w : Verdict) (h : u.file.le v.file) (h' : v.file.le w.file) : u.file.le w.file := Text.le_trans h h'
    exact List.pairwise_mergeSort htrans (fun v w => Text.le_total v.file w.file) vs

/-! ## Identical sources -/

section Assign

variable {skip : List Text} {hash : Text → Except FileFailure Text} {seen : List (Text × Text)}

/-- What becomes of a source. -/
theorem examine_cases (skip : List Text) (hash : Text → Except FileFailure Text) (seen : List (Text × Text))
    (source : Text) :
    (isSkipped skip source = true ∧ examine skip hash seen source =
      (.settled { file := source, status := .skip, message := "Explicitly skipped" }, seen)) ∨
    (isSkipped skip source = false ∧ ∃ f, hash source = .error f ∧ examine skip hash seen source =
      (.settled { file := source, status := .error, message := "Failed to read file for hashing: " ++ f.message },
        seen)) ∨
    (isSkipped skip source = false ∧ ∃ h first, hash source = .ok h ∧ seen.lookup h = some first ∧
      examine skip hash seen source =
        (.settled { file := source, status := .skip, message := "Content is identical to " ++ first }, seen)) ∨
    (isSkipped skip source = false ∧ ∃ h, hash source = .ok h ∧ seen.lookup h = none ∧
      examine skip hash seen source = (.task source h, (h, source) :: seen)) := by
  cases hskip : isSkipped skip source with
  | true => exact .inl ⟨rfl, by simp [examine, hskip]⟩
  | false =>
    cases hhash : hash source with
    | error f => exact .inr (.inl ⟨rfl, f, rfl, by simp [examine, hskip, hhash]⟩)
    | ok h =>
      cases hseen : seen.lookup h with
      | some first => exact .inr (.inr (.inl ⟨rfl, h, first, rfl, hseen, by simp [examine, hskip, hhash, hseen]⟩))
      | none => exact .inr (.inr (.inr ⟨rfl, h, rfl, hseen, by simp [examine, hskip, hhash, hseen]⟩))

/-- The fingerprints seen behind some sources. -/
def seenAfter (skip : List Text) (hash : Text → Except FileFailure Text) (seen : List (Text × Text)) :
    List Text → List (Text × Text)
  | [] => seen
  | source :: rest => seenAfter skip hash (examine skip hash seen source).2 rest

theorem assign_append (seen : List (Text × Text)) (xs ys : List Text) :
    assign skip hash seen (xs ++ ys) = assign skip hash seen xs ++ assign skip hash (seenAfter skip hash seen xs) ys := by
  induction xs generalizing seen with
  | nil => rfl
  | cons x xs ih => rw [List.cons_append, assign_cons, assign_cons, ih, List.cons_append, seenAfter]

/-- Whether a source is neither skipped nor unreadable and has a fingerprint. -/
def bears (skip : List Text) (hash : Text → Except FileFailure Text) (h source : Text) : Bool :=
  !isSkipped skip source && (hash source).toOption == some h

/-- A fingerprint is seen with the first source that bears it. -/
theorem lookup_seenAfter (seen : List (Text × Text)) (xs : List Text) (h : Text) :
    (seenAfter skip hash seen xs).lookup h = (seen.lookup h).or (xs.find? (bears skip hash h)) := by
  induction xs generalizing seen with
  | nil => simp [seenAfter]
  | cons x xs ih =>
    rw [seenAfter, ih]
    rcases examine_cases skip hash seen x with
      ⟨hskip, heq⟩ | ⟨-, f, hhash, heq⟩ | ⟨-, k, first, hhash, hseen, heq⟩ | ⟨hskip, k, hhash, hseen, heq⟩
    · rw [heq, List.find?_cons_of_neg (by simp [bears, hskip])]
    · rw [heq, List.find?_cons_of_neg (by simp [bears, hhash, Except.toOption])]
    · rw [heq]
      by_cases hk : k = h
      · subst hk
        rw [hseen, Option.some_or, Option.some_or]
      · rw [List.find?_cons_of_neg (by simp [bears, hhash, Except.toOption, hk])]
    · rw [heq]
      by_cases hk : k = h
      · subst hk
        rw [List.find?_cons_of_pos (by simp [bears, hskip, hhash, Except.toOption]), hseen]
        simp
      · rw [List.find?_cons_of_neg (by simp [bears, hhash, Except.toOption, hk]), List.lookup_cons,
          beq_false_of_ne (Ne.symm hk)]

end Assign

/-! ## Verdicts -/

/-- How tests can end. -/
def statuses : List Status := [.pass, .fail, .skip, .error]

/-- The message on a source that has been seen before. -/
def identicalTo (first : Text) : Text := "Content is identical to " ++ first

theorem identicalTo_inj {a b : Text} (h : identicalTo a = identicalTo b) : a = b := by
  have hbytes := congrArg Text.bytes h
  rw [identicalTo, identicalTo, Text.bytes_append, Text.bytes_append] at hbytes
  exact congrArg Text.mk (List.append_cancel_left hbytes)

/-- The message begins in its own way. -/
theorem ne_identicalTo {m : Text} (front : List UInt8) (hm : m.bytes.take 3 = front) (hfront : front ≠ [0x43, 0x6F, 0x6E])
    (first : Text) : m ≠ identicalTo first := by
  rintro rfl
  exact hfront hm.symm

/-- A verdict on a file that was looked at itself. -/
def OwnVerdict (source : Text) (v : Verdict) : Prop :=
  v.file = source ∧ v.status ∈ statuses ∧ ∀ first, v.message ≠ identicalTo first

theorem ownVerdict_judge (d : Differ) (ignored : List Text) (source : Text) (expected actual : Result) :
    OwnVerdict source (judge d ignored source expected actual) := by
  unfold judge
  dsimp only
  split
  · exact ⟨rfl, by simp [statuses], ne_identicalTo [0x41, 0x6C, 0x6C] rfl (by decide)⟩
  · exact ⟨rfl, by simp [statuses], ne_identicalTo [0x43, 0x6F, 0x6D] rfl (by decide)⟩

theorem ownVerdict_judgeTrial (b : Bench) (files : FileTree) (source hash : Text) (golden : Result) :
    OwnVerdict source (b.judgeTrial files source hash golden).1 := by
  unfold Bench.judgeTrial
  dsimp only
  cases (b.attempt files source hash).error with
  | none => exact ownVerdict_judge _ _ source golden _
  | some e =>
    cases e with
    | rejected code => exact ownVerdict_judge _ _ source golden _
    | unreadable f =>
      exact ⟨rfl, by simp [statuses, TrialError.isRejection], ne_identicalTo [0x72, 0x65, 0x61] rfl (by decide)⟩
    | noAssembly path =>
      exact ⟨rfl, by simp [statuses, TrialError.isRejection], ne_identicalTo [0x63, 0x6F, 0x6D] rfl (by decide)⟩

/-- A test ends in one of four ways, and never finds its source identical to another. -/
theorem ownVerdict_test (b : Bench) (files : FileTree) (source hash : Text) :
    OwnVerdict source (b.test files source hash).1 := by
  unfold Bench.test
  dsimp only
  cases files.read b.machine.cwd (goldenPath b.options.dir source) with
  | error f =>
    dsimp only
    split
    · exact ⟨rfl, by simp [statuses], ne_identicalTo [0x43, 0x61, 0x6E] rfl (by decide)⟩
    · exact ⟨rfl, by simp [statuses], ne_identicalTo [0x43, 0x6F, 0x75] rfl (by decide)⟩
  | ok text =>
    dsimp only
    cases Result.parse text with
    | error message => exact ⟨rfl, by simp [statuses], ne_identicalTo [0x43, 0x6F, 0x75] rfl (by decide)⟩
    | ok golden => exact ownVerdict_judgeTrial b files source hash golden

/-- What becomes of a source is a verdict on it, and says that it is identical to another one iff that is the source with
which its fingerprint has been seen. -/
theorem verdictOf_examine (b : Bench) (files : FileTree) (skip : List Text) (hash : Text → Except FileFailure Text)
    (seen : List (Text × Text)) (source : Text) :
    let v := b.verdictOf files (examine skip hash seen source).1
    v.file = source ∧ v.status ∈ statuses ∧ ∀ first, v.message = identicalTo first ↔
      isSkipped skip source = false ∧ ∃ h, hash source = .ok h ∧ seen.lookup h = some first := by
  intro v
  rcases examine_cases skip hash seen source with
    ⟨hskip, heq⟩ | ⟨hskip, f, hhash, heq⟩ | ⟨hskip, h, first, hhash, hseen, heq⟩ | ⟨hskip, h, hhash, hseen, heq⟩
  · simp only [v, heq, Bench.verdictOf]
    refine ⟨trivial, by simp [statuses], fun first => ?_⟩
    simpa [hskip] using ne_identicalTo [0x45, 0x78, 0x70] rfl (by decide) first
  · simp only [v, heq, Bench.verdictOf]
    refine ⟨trivial, by simp [statuses], fun first => ?_⟩
    simpa [hhash] using ne_identicalTo [0x46, 0x61, 0x69] rfl (by decide) first
  · simp only [v, heq, Bench.verdictOf]
    refine ⟨trivial, by simp [statuses], fun other => ?_⟩
    constructor
    · intro hmessage
      exact ⟨hskip, h, hhash, by rw [hseen, identicalTo_inj hmessage]⟩
    · rintro ⟨-, h', hhash', hseen'⟩
      cases hhash.symm.trans hhash'
      cases hseen.symm.trans hseen'
      rfl
  · obtain ⟨hfile, hstatus, hmessage⟩ := ownVerdict_test b files source h
    simp only [v, heq, Bench.verdictOf]
    refine ⟨hfile, hstatus, fun first => iff_of_false (hmessage first) ?_⟩
    rintro ⟨-, h', hhash', hseen'⟩
    cases hhash.symm.trans hhash'
    rw [hseen] at hseen'
    cases hseen'

/-- Where tests leave one another alone, carrying a plan out gives the verdict of each assignment at the start. -/
theorem verdicts_eq {b : Bench} {skip found : List Text} {files : FileTree} {Usual : FileTree → Prop}
    (hisolated : b.Isolated skip found files Usual) {as : List Assignment} (has : as ⊆ b.plan skip found files)
    {tree : FileTree} (htree : Usual tree) : (b.verdicts as tree).1 = as.map (b.verdictOf files) := by
  induction as generalizing tree with
  | nil => rfl
  | cons a rest ih =>
    obtain ⟨ha, hrest⟩ := List.cons_subset.1 has
    cases a with
    | settled v =>
      simp only [Bench.verdicts, List.map_cons, Bench.verdictOf]
      rw [ih hrest htree]
    | task source hash =>
      simp only [Bench.verdicts, List.map_cons, Bench.verdictOf]
      rw [ih hrest (hisolated.keeps tree htree source hash ha), hisolated.verdict tree htree source hash ha]

/-- The verdict on a source behind some others. -/
theorem verdict_behind (b : Bench) (files : FileTree) (skip before : List Text) (source : Text) (after : List Text) :
    b.verdictOf files (examine skip (b.contentHash files) (seenAfter skip (b.contentHash files) [] before) source).1 ∈
      (b.plan skip (before ++ source :: after) files).map (b.verdictOf files) := by
  rw [Bench.plan, assign_append, assign_cons]
  simp

theorem map_file_plan (b : Bench) (files : FileTree) (skip : List Text) (hash : Text → Except FileFailure Text)
    (seen : List (Text × Text)) (found : List Text) :
    ((assign skip hash seen found).map (b.verdictOf files)).map Verdict.file = found ∧
      ∀ v ∈ (assign skip hash seen found).map (b.verdictOf files), v.status ∈ statuses := by
  induction found generalizing seen with
  | nil => exact ⟨rfl, List.forall_mem_nil _⟩
  | cons source rest ih =>
    obtain ⟨hfiles, hstatuses⟩ := ih (examine skip hash seen source).2
    obtain ⟨hfile, hstatus, -⟩ := verdictOf_examine b files skip hash seen source
    rw [assign_cons]
    exact ⟨congrArg₂ List.cons hfile hfiles, List.forall_mem_cons.2 ⟨hstatus, hstatuses⟩⟩

/-! ## Summaries -/

/-- The line that counts verdicts, from its numbers. -/
def tallyLine (passed failed skipped errored total : Nat) : Text :=
  Tint.bold.paint "Test Summary:" ++ " " ++
    Text.join ", " [Tint.green.paint (Text.ofNat passed ++ " Passed"), Tint.red.paint (Text.ofNat failed ++ " Failed"),
      Tint.yellow.paint (Text.ofNat skipped ++ " Skipped"), Tint.red.paint (Text.ofNat errored ++ " Errored"),
      Text.ofNat total ++ " Total"]

/-- How many verdicts have a status. -/
def countOf (vs : List Verdict) (s : Status) : Nat := vs.countP fun v => v.status = s

theorem countLine_eq (vs : List Verdict) :
    countLine vs = tallyLine (countOf vs .pass) (countOf vs .fail) (countOf vs .skip) (countOf vs .error) vs.length := rfl

theorem counts_add_up {vs : List Verdict} (h : ∀ v ∈ vs, v.status ∈ statuses) :
    countOf vs .pass + countOf vs .fail + countOf vs .skip + countOf vs .error = vs.length := by
  induction vs with
  | nil => rfl
  | cons v rest ih =>
    obtain ⟨hv, hrest⟩ := List.forall_mem_cons.1 h
    have hsum := ih hrest
    simp only [statuses, List.mem_cons, List.not_mem_nil, or_false] at hv
    simp only [countOf, List.countP_cons, List.length_cons] at hsum ⊢
    rcases hv with hv | hv | hv | hv <;> simp [hv] <;> omega

/-- Where every file has one verdict the verdicts by file are the verdicts. -/
theorem byFile_perm {vs : List Verdict} (hfiles : (vs.map Verdict.file).Nodup) : (byFile vs).Perm vs := by
  have hfold : ∀ done, ((done ++ vs).map Verdict.file).Nodup →
      vs.foldl (fun done v => done.filter (fun d => d.file ≠ v.file) ++ [v]) done = done ++ vs := by
    clear hfiles
    induction vs with
    | nil => simp
    | cons v rest ih =>
      intro done hnodup
      have hkeep : done.filter (fun d => d.file ≠ v.file) = done := by
        rw [List.map_append, List.nodup_append] at hnodup
        refine List.filter_eq_self.2 fun d hd => decide_eq_true ?_
        exact hnodup.2.2 d.file (List.mem_map_of_mem hd) v.file (List.mem_map_of_mem List.mem_cons_self)
      rw [List.foldl_cons, hkeep, ih _ (by simpa using hnodup)]
      simp
  unfold byFile
  rw [hfold [] (by simpa using hfiles)]
  exact List.mergeSort_perm _ _

theorem hasFailures_iff {vs : List Verdict} (hfiles : (vs.map Verdict.file).Nodup) :
    hasFailures vs = true ↔ 0 < countOf vs .fail ∨ 0 < countOf vs .error := by
  rw [hasFailures, (byFile_perm hfiles).any_eq, List.any_eq_true]
  simp [countOf, List.countP_pos_iff, Verdict.isFailure, and_or_left, exists_or]

/-- The summary is printed with its counts in a line of their own. -/
theorem summary_eq (style : SummaryStyle) (vs : List Verdict) :
    ∃ front back, summary style vs = front ++ (countLine vs ++ "\n") ++ back := by
  refine ⟨Text.unlines (vs.flatMap (verdictLines style) ++ [rule]), Text.unlines (averageLines style vs), ?_⟩
  have hline : countLine vs ++ "\n" = Text.unlines [countLine vs] :=
    congrArg Text.mk (List.append_nil _).symm
  rw [summary, hline, ← Text.unlines_append, ← Text.unlines_append]
  simp

/-- What a suite prints and how it ends, from the verdicts that it has. -/
theorem conclude_counts (b : Bench) (style : SummaryStyle) (tree : FileTree) {vs : List Verdict}
    (hfiles : (vs.map Verdict.file).Nodup) (hstatuses : ∀ v ∈ vs, v.status ∈ statuses) :
    ∃ passed failed skipped errored front back,
      (b.conclude style vs tree).1.stdout =
        front ++ (tallyLine passed failed skipped errored vs.length ++ "\n") ++ back ∧
      passed + failed + skipped + errored = vs.length ∧
      (b.conclude style vs tree).1.status = if 0 < failed ∨ 0 < errored then 1 else 0 := by
  obtain ⟨front, back, hsummary⟩ := summary_eq style vs
  refine ⟨_, _, _, _, front, back ++ (b.writeReport vs tree).1.stdout, ?_, counts_add_up hstatuses, ?_⟩
  · have hstdout : (b.conclude style vs tree).1.stdout = summary style vs ++ (b.writeReport vs tree).1.stdout := rfl
    rw [hstdout, hsummary, countLine_eq]
    exact congrArg Text.mk (List.append_assoc _ _ _)
  · have hstatus : (b.conclude style vs tree).1.status = if hasFailures vs then 1 else 0 := rfl
    rw [hstatus]
    simp only [hasFailures_iff hfiles]

/-- Whatever way the tests take, with any number of workers: no send finds its queue full, some step is possible until
everybody has left, and every way comes to an end. The results are then the verdicts of the plan, and sorted by file they
are the list that is summed up if the plan is carried out in order. This list has one verdict for each source. A source is
said to be identical to the first one before it that is neither skipped nor unreadable and has its fingerprint, if there is
one, and only then. The counts that are printed add up to the number of sources, and the status is one iff the count of
failures or that of errors is positive. -/
theorem outcome_independent_of_schedule (b : Bench) (skip found : List Text) (hfound : found.Nodup) (files : FileTree)
    (Usual : FileTree → Prop) (hisolated : b.Isolated skip found files Usual) (jobs : Int) :
    let start := Pool.start jobs found files
    let hash := b.contentHash files
    let verdicts := (b.verdicts (assign skip hash [] found) files).1
    let listed := verdicts.mergeSort fun v w => v.file.le w.file
    (∀ n p, Run b skip found.length n start p →
      n ≤ 5 * found.length + (max jobs 1).toNat + 1 ∧ p.Roomy found.length ∧
      (p.Finished ∨ ∃ q, Step b skip found.length p q) ∧
      (p.Finished → p.results.Perm verdicts ∧
        ∀ vs, vs.Perm p.results → vs.Pairwise (fun v w => v.file.le w.file) → vs = listed)) ∧
    (∃ n p, Run b skip found.length n start p ∧ p.Finished) ∧
    (listed.map Verdict.file).Perm found ∧
    (∀ v ∈ listed, ∀ before after, found = before ++ v.file :: after → ∀ first,
      v.message = "Content is identical to " ++ first ↔
        isSkipped skip v.file = false ∧
          ∃ h, hash v.file = .ok h ∧ before.find? (bears skip hash h) = some first) ∧
    ∀ style tree, ∃ passed failed skipped errored front back,
      (b.conclude style listed tree).1.stdout =
        front ++ (tallyLine passed failed skipped errored found.length ++ "\n") ++ back ∧
      passed + failed + skipped + errored = found.length ∧
      (b.conclude style listed tree).1.status = if 0 < failed ∨ 0 < errored then 1 else 0 := by
  intro start hash verdicts listed
  have hstart : start.Sound b skip found files Usual := Pool.sound_start hisolated jobs
  have hverdicts : verdicts = (b.plan skip found files).map (b.verdictOf files) :=
    verdicts_eq hisolated (List.Subset.refl _) hisolated.start
  obtain ⟨hmap, hstatuses⟩ := map_file_plan b files skip hash [] found
  have hnodup : (verdicts.map Verdict.file).Nodup := by
    rw [hverdicts]
    exact hmap.symm ▸ hfound
  have hperm : listed.Perm verdicts := sorted_perm verdicts
  have hlisted : (listed.map Verdict.file).Perm found := by
    rw [hverdicts] at hperm
    exact (hperm.map _).trans (.of_eq hmap)
  refine ⟨fun n p hrun => ?_, Run.exists_finished hisolated hstart .refl, hlisted, ?_, fun style tree => ?_⟩
  · have hp := hrun.sound hisolated hstart
    have hload : start.load = 5 * found.length + (max jobs 1).toNat + 1 := by
      simp [start, Pool.start, Pool.load, Worker.load]
    have hle := hrun.load_le
    refine ⟨by omega, hp.roomy, hp.progress, fun hfinished => ?_⟩
    have hresults : p.results.Perm verdicts := hverdicts ▸ hp.results_perm hfinished
    exact ⟨hresults, fun vs hvs hsorted => eq_sorted hnodup (hvs.trans hresults) hsorted⟩
  · intro v hv before after hsplit first
    have hbehind := verdict_behind b files skip before v.file after
    rw [← hsplit, ← hverdicts] at hbehind
    obtain ⟨hfile, -, hmessage⟩ := verdictOf_examine b files skip hash (seenAfter skip hash [] before) v.file
    rw [List.inj_on_of_nodup_map hnodup hbehind (hperm.subset hv) hfile] at hmessage
    have hseen : ∀ h, (seenAfter skip hash [] before).lookup h = before.find? (bears skip hash h) :=
      fun h => (lookup_seenAfter [] before h).trans (Option.none_or)
    simp only [hseen] at hmessage
    exact hmessage first
  · have hlength : listed.length = found.length := by simpa using hlisted.length_eq
    rw [← hlength]
    refine conclude_counts b style tree (hlisted.nodup_iff.2 hfound) fun v hv => hstatuses v ?_
    exact hverdicts ▸ hperm.subset hv

/-- Six sources: one whose golden file agrees, one whose golden file does not, one without a golden file, a copy of the
first, one to be skipped and one that is not there. -/
def sampleSources : List Text := ["/c", "/b", "/d", "/a", "/skipped", "/missing"]

/-- What a compiler that ends with status one leads to. -/
def refusal : Result := { compile := { exitCode := 1 } }

def sampleFiles : FileTree :=
  ⟨[(["a"], .file "begin end"), (["b"], .file "end"), (["c"], .file "begin end"), (["d"], .file "begin"),
    (["skipped"], .file ""), ([".c.json"], .file refusal.render), ([".b.json"], .file ({} : Result).render)]⟩

/-- A machine on which contents are their own fingerprints, and every program ends with status one. -/
def sampleMachine : Machine where
  cwd := []
  fingerprint content := content
  differ := plainDiffer
  isInstalled _ _ := false
  start _ files _ _ _ := ({ ending := .exited 1 }, files)

def sampleBench : Bench := { machine := sampleMachine, options := {}, temp := "/tmp" }

/-- What becomes of the sources: three are to be tested, by two workers. -/
def samplePlan : List Assignment :=
  [.task "/c" "begin end", .task "/b" "end", .task "/d" "begin",
    .settled { file := "/a", status := .skip, message := "Content is identical to /c" },
    .settled { file := "/skipped", status := .skip, message := "Explicitly skipped" },
    .settled
      { file := "/missing", status := .error,
        message := "Failed to read file for hashing: open /missing: no such file or directory" }]

/-- The verdicts, by file. -/
def sampleVerdicts : List Verdict :=
  [{ file := "/a", status := .skip, message := "Content is identical to /c" },
    { file := "/b", status := .fail, message := "Compiler output, assembly or runtime output mismatch",
      diff := "Compile exit code mismatch:\n  - Expected: 0\n  - Actual:   1\n", expected := some {},
      actual := some refusal },
    { file := "/c", status := .pass, message := "All checks passed", expected := some refusal, actual := some refusal },
    { file := "/d", status := .skip, message := "Cannot test without a corresponding .json golden file" },
    { file := "/missing", status := .error,
      message := "Failed to read file for hashing: open /missing: no such file or directory" },
    { file := "/skipped", status := .skip, message := "Explicitly skipped" }]

/-- A source with a golden file is judged by the result that was stored in it. -/
theorem Bench.test_eq {b : Bench} {files : FileTree} {source : Text} {r : Result} (hr : r.Storable)
    (hread : files.read b.machine.cwd (goldenPath b.options.dir source) = .ok r.render) (hash : Text) :
    b.test files source hash = b.judgeTrial files source hash r := by
  rw [Bench.test, hread]
  simp only [Result.parse_render hr]

/-- Two workers come to the same end in every way. -/
theorem sampleSources_outcome :
    sampleSources.Nodup ∧ sampleBench.Isolated ["skipped"] sampleSources sampleFiles (· = sampleFiles) ∧
    sampleBench.plan ["skipped"] sampleSources sampleFiles = samplePlan ∧
    (∃ n p, Run sampleBench ["skipped"] 6 n (Pool.start 2 sampleSources sampleFiles) p ∧ p.Finished) ∧
    ∀ n p, Run sampleBench ["skipped"] 6 n (Pool.start 2 sampleSources sampleFiles) p → p.Finished →
      ∀ vs : List Verdict, vs.Perm p.results → vs.Pairwise (fun v w => v.file.le w.file) →
        vs = sampleVerdicts := by
  have hnodup : sampleSources.Nodup := by decide +kernel
  have hplan : sampleBench.plan ["skipped"] sampleSources sampleFiles = samplePlan := by decide +kernel
  have hagreeing (hash : Text) : sampleBench.test sampleFiles "/c" hash = _ :=
    Bench.test_eq (r := refusal) (by decide +kernel) rfl hash
  have hdiffering (hash : Text) : sampleBench.test sampleFiles "/b" hash = _ :=
    Bench.test_eq (r := {}) (by decide +kernel) rfl hash
  have hkeeps : ∀ a ∈ samplePlan, (sampleBench.verdicts [a] sampleFiles).2 = sampleFiles := by
    simp only [samplePlan, List.forall_mem_cons, Bench.verdicts, hagreeing, hdiffering]
    decide +kernel
  have hisolated : sampleBench.Isolated ["skipped"] sampleSources sampleFiles (· = sampleFiles) := by
    constructor
    · rfl
    · rintro tree rfl source _
      rfl
    · rintro tree rfl source hash _
      rfl
    · rintro tree rfl source hash htask
      exact hkeeps _ (hplan ▸ htask)
  obtain ⟨hruns, hend, -⟩ :=
    outcome_independent_of_schedule sampleBench ["skipped"] sampleSources hnodup sampleFiles _ hisolated 2
  refine ⟨hnodup, hisolated, hplan, hend, fun n p hrun hfinished vs hperm hsorted => ?_⟩
  obtain ⟨hresults, hlisted⟩ := (hruns n p hrun).2.2.2 hfinished
  have hverdicts : (sampleBench.verdicts (sampleBench.plan ["skipped"] sampleSources sampleFiles) sampleFiles).1 = _ :=
    verdicts_eq hisolated (List.Subset.refl _) rfl
  rw [hplan] at hverdicts
  simp only [samplePlan, List.map_cons, List.map_nil, Bench.verdictOf, hagreeing, hdiffering] at hverdicts
  have hsample : p.results.Perm sampleVerdicts := by
    refine hresults.trans ?_
    rw [show assign _ _ _ _ = samplePlan from hplan, samplePlan, hverdicts]
    decide +kernel
  exact (hlisted vs hperm hsorted).trans (hlisted sampleVerdicts hsample.symm (by decide +kernel)).symm

end Suite

end AlgolMips
