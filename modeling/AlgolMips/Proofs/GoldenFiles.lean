import AlgolMips.Golden.Compare
import AlgolMips.Proofs.JsonText
import Mathlib.Data.List.Nodup

/-!
# Golden files

A stored result is read back as it was (`Result.parse_render`), and a result agrees with itself whatever lines are left
out of account (`Result.differences_self`). So a file passes against the golden file that was stored for the same result
(`golden_round_trip`).

Members that are left out where they are empty are read as empty, because every field that a text does not give keeps the
value that a fresh record has.
-/

namespace AlgolMips.Golden

/-! ## Results that can be stored -/

/-- A number that a word can hold. -/
def FitsWord (n : Int) : Prop := Int64.minValue.toInt ≤ n ∧ n ≤ Int64.maxValue.toInt

instance (n : Int) : Decidable (FitsWord n) := inferInstanceAs (Decidable (_ ∧ _))

/-- The output is well-formed UTF-8 and the exit code is a word. -/
def Execution.Storable (e : Execution) : Prop := e.stdout.IsUtf8 ∧ e.stderr.IsUtf8 ∧ FitsWord e.exitCode

instance (e : Execution) : Decidable e.Storable := inferInstanceAs (Decidable (_ ∧ _ ∧ _))

def TestRun.Storable (r : TestRun) : Prop := r.name.IsUtf8 ∧ r.input.IsUtf8 ∧ r.result.Storable

instance (r : TestRun) : Decidable r.Storable := inferInstanceAs (Decidable (_ ∧ _ ∧ _))

/-- All texts of a result are well-formed UTF-8 and all exit codes are words. -/
def Result.Storable (r : Result) : Prop :=
  r.compile.Storable ∧ r.assembly.IsUtf8 ∧ r.assemblyHash.IsUtf8 ∧ ∀ run ∈ r.runs, run.Storable

instance (r : Result) : Decidable r.Storable := inferInstanceAs (Decidable (_ ∧ _ ∧ _ ∧ ∀ run ∈ r.runs, _))

/-! ## Their trees -/

namespace Json

variable {ms : List (Text × Json)} {js : List Json} {n : Nat}

theorem plain_record (h : ∀ m ∈ ms, m.1.IsUtf8 ∧ m.2.Plain) : (record ms).Plain := by
  show (ofMembers ms).Plain
  induction ms with
  | nil => trivial
  | cons m rest ih =>
    obtain ⟨hm, hrest⟩ := List.forall_mem_cons.1 h
    exact ⟨hm.1, hm.2, ih hrest⟩

theorem plain_list (h : ∀ j ∈ js, j.Plain) : (list js).Plain := by
  show (ofItems js).Plain
  induction js with
  | nil => trivial
  | cons j rest ih =>
    obtain ⟨hj, hrest⟩ := List.forall_mem_cons.1 h
    exact ⟨hj, ih hrest⟩

theorem depth_record (h : ∀ m ∈ ms, m.2.depth ≤ n) : (record ms).depth ≤ n + 1 := by
  refine Nat.succ_le_succ ?_
  induction ms with
  | nil => exact Nat.zero_le n
  | cons m rest ih =>
    obtain ⟨hm, hrest⟩ := List.forall_mem_cons.1 h
    exact Nat.max_le.2 ⟨hm, ih hrest⟩

theorem depth_list (h : ∀ j ∈ js, j.depth ≤ n) : (list js).depth ≤ n + 1 := by
  refine Nat.succ_le_succ ?_
  induction js with
  | nil => exact Nat.zero_le n
  | cons j rest ih =>
    obtain ⟨hj, hrest⟩ := List.forall_mem_cons.1 h
    exact Nat.max_le.2 ⟨hj, ih hrest⟩

end Json

theorem mem_textMember {key t : Text} {m : Text × Json} (h : m ∈ textMember key t) : m = (key, .string t) := by
  unfold textMember at h
  split at h
  · cases h
  · exact List.mem_singleton.1 h

theorem Execution.plain_toJson {e : Execution} (h : e.Storable) : e.toJson.Plain := by
  refine Json.plain_record ?_
  simp only [List.forall_mem_cons]
  exact ⟨⟨Text.isUtf8_ofString _, h.1⟩, ⟨Text.isUtf8_ofString _, h.2.1⟩, ⟨Text.isUtf8_ofString _, _, rfl⟩,
    ⟨Text.isUtf8_ofString _, _, rfl⟩, ⟨Text.isUtf8_ofString _, trivial⟩, nofun⟩

theorem Execution.depth_toJson (e : Execution) : e.toJson.depth ≤ 1 := by
  refine Json.depth_record ?_
  simp only [List.forall_mem_cons]
  exact ⟨Nat.le_refl 0, Nat.le_refl 0, Nat.le_refl 0, Nat.le_refl 0, Nat.le_refl 0, nofun⟩

theorem TestRun.plain_toJson {r : TestRun} (h : r.Storable) : r.toJson.Plain := by
  refine Json.plain_record ?_
  simp only [List.forall_mem_append, member, List.forall_mem_singleton]
  refine ⟨⟨⟨Text.isUtf8_ofString _, h.1⟩, fun m hm => ?_⟩, Text.isUtf8_ofString _, Execution.plain_toJson h.2.2⟩
  rw [mem_textMember hm]
  exact ⟨Text.isUtf8_ofString _, h.2.1⟩

theorem TestRun.depth_toJson (r : TestRun) : r.toJson.depth ≤ 2 := by
  refine Json.depth_record ?_
  simp only [List.forall_mem_append, member, List.forall_mem_singleton]
  refine ⟨⟨Nat.zero_le 1, fun m hm => ?_⟩, r.result.depth_toJson⟩
  rw [mem_textMember hm]
  exact Nat.zero_le 1

theorem Result.plain_toJson {r : Result} (h : r.Storable) : r.toJson.Plain := by
  refine Json.plain_record ?_
  simp only [List.forall_mem_append, member, List.forall_mem_singleton]
  refine ⟨⟨⟨⟨Text.isUtf8_ofString _, Execution.plain_toJson h.1⟩, fun m hm => ?_⟩, fun m hm => ?_⟩, fun m hm => ?_⟩
  · rw [mem_textMember hm]
    exact ⟨Text.isUtf8_ofString _, h.2.1⟩
  · rw [mem_textMember hm]
    exact ⟨Text.isUtf8_ofString _, h.2.2.1⟩
  · split at hm
    · cases hm
    · rw [List.mem_singleton.1 hm]
      refine ⟨Text.isUtf8_ofString _, Json.plain_list (List.forall_mem_map.2 fun run hrun => ?_)⟩
      exact TestRun.plain_toJson (h.2.2.2 run hrun)

theorem Result.depth_toJson (r : Result) : r.toJson.depth ≤ 4 := by
  refine Json.depth_record ?_
  simp only [List.forall_mem_append, member, List.forall_mem_singleton]
  refine ⟨⟨⟨Nat.le_trans r.compile.depth_toJson (by decide), fun m hm => ?_⟩, fun m hm => ?_⟩, fun m hm => ?_⟩
  · rw [mem_textMember hm]
    exact Nat.zero_le 3
  · rw [mem_textMember hm]
    exact Nat.zero_le 3
  · split at hm
    · cases hm
    · rw [List.mem_singleton.1 hm]
      exact Json.depth_list (List.forall_mem_map.2 fun run _ => run.depth_toJson)

/-! ## Reading them -/

/-- The text of a number is read as the number, if a word can hold it. -/
theorem intValue?_ofInt {n : Int} (h : FitsWord n) : intValue? (Text.ofInt n) = some n := by
  have hwhole : ∀ m : Nat, wholeValue? (Text.ofNat m).bytes = some m := by
    intro m
    rw [wholeValue?, if_pos (List.all_eq_true.2 fun _ => Text.isDigit_of_mem_ofNat), Text.digitsValue_ofNat]
  cases n with
  | ofNat m =>
    obtain ⟨b, ds, hbytes, -⟩ := Text.ofNat_eq_cons m
    have hdigit := Text.isDigit_of_mem_ofNat (hbytes ▸ List.mem_cons_self : b ∈ (Text.ofNat m).bytes)
    have hvalue := hwhole m
    rw [hbytes] at hvalue
    simp only [intValue?, show (Text.ofInt (.ofNat m)).bytes = b :: ds from hbytes]
    split
    · next r heq =>
      cases heq
      exact absurd hdigit (by decide)
    · simpa [hvalue, FitsWord] using h
  | negSucc m =>
    simp only [intValue?, Text.bytes_ofInt_negSucc, hwhole]
    exact Option.filter_eq_some_iff.2 ⟨rfl, decide_eq_true h⟩

theorem fitsWord_toInt (n : Int64) : FitsWord n.toInt := ⟨n.minValue_le_toInt, n.toInt_le⟩

/-- A key that is spelled as a name stands for it. -/
theorem fieldOf?_of_mem {known : List Text} {key : Text} (h : key ∈ known) : fieldOf? known key = some key := by
  have hfind : known.find? (· = key) = some key := by
    induction known with
    | nil => cases h
    | cons k rest ih =>
      by_cases hk : k = key
      · simp [hk]
      · simp [hk, ih ((List.mem_cons.1 h).resolve_left (Ne.symm hk))]
  rw [fieldOf?, hfind, Option.some_or]

theorem Execution.decode_toJson (trail : Trail) (old e : Execution) (h : FitsWord e.exitCode) :
    old.decode trail e.toJson = .ok e := by
  have hduration := fitsWord_toInt e.duration
  simp +decide [Execution.decode, Execution.toJson, decodeRecord, Json.record, Json.ofMembers, decodeMembers, Json.int,
    decodeText, decodeInt, decodeBool, intValue?_ofInt h, intValue?_ofInt hduration, fieldOf?_of_mem, pure, Except.pure,
    bind, Except.bind]

/-- Reading some members one after the other makes one record of another. -/
def Decodes {α : Type} (step : α → Text → Json → Except DecodeError α) (a : α) (ms : List (Text × Json)) (b : α) : Prop :=
  decodeMembers step a (Json.ofMembers ms) = .ok b

section Members

variable {α : Type} {step : α → Text → Json → Except DecodeError α} {a b c : α}

theorem Decodes.append {xs ys : List (Text × Json)} (h : Decodes step a xs b) (h' : Decodes step b ys c) :
    Decodes step a (xs ++ ys) c := by
  unfold Decodes at h h' ⊢
  induction xs generalizing a with
  | nil =>
    simp only [Json.ofMembers, decodeMembers, Except.ok.injEq] at h
    exact h ▸ h'
  | cons x xs ih =>
    obtain ⟨k, j⟩ := x
    simp only [List.cons_append, Json.ofMembers, decodeMembers] at h ⊢
    cases hx : step a k j with
    | error e =>
      rw [hx] at h
      cases h
    | ok a' =>
      rw [hx] at h
      exact ih h

theorem decodes_nil : Decodes step a [] a := by
  simp [Decodes, Json.ofMembers, decodeMembers]

theorem decodes_member {key : Text} {j : Json} (h : step a key j = .ok b) : Decodes step a (member key j) b := by
  simp [Decodes, member, Json.ofMembers, decodeMembers, h, bind, Except.bind]

/-- A text member that was left out is read as empty, if nothing has been read into its field. -/
theorem decodes_textMember {key t : Text} (h : step a key (.string t) = .ok b) (hempty : t = .empty → b = a) :
    Decodes step a (textMember key t) b := by
  unfold textMember
  split
  · next ht =>
    have hnone : t = .empty := congrArg Text.mk (List.isEmpty_iff.1 ht)
    rw [hempty hnone]
    exact decodes_nil
  · exact decodes_member h

end Members

theorem TestRun.decode_toJson (trail : Trail) (r : TestRun) (h : FitsWord r.result.exitCode) :
    TestRun.decode trail {} r.toJson = .ok r := by
  refine Decodes.append (b := { name := r.name, input := r.input })
    (Decodes.append (b := { name := r.name }) (decodes_member ?_) (decodes_textMember ?_ ?_)) (decodes_member ?_)
  · simp [fieldOf?_of_mem, decodeText, pure, Except.pure, bind, Except.bind]
  · simp +decide [fieldOf?_of_mem, decodeText, pure, Except.pure, bind, Except.bind]
  · intro hempty
    rw [hempty]
    rfl
  · simp +decide [fieldOf?_of_mem, Execution.decode_toJson _ _ _ h, pure, Except.pure, bind, Except.bind]

theorem decodeItems_toJson (trail : Trail) (n : Nat) (runs : List TestRun)
    (h : ∀ r ∈ runs, FitsWord r.result.exitCode) :
    decodeItems trail n [] (Json.ofItems (runs.map TestRun.toJson)) = .ok (runs, []) := by
  induction runs generalizing n with
  | nil => simp [Json.ofItems, decodeItems]
  | cons r rest ih =>
    obtain ⟨hr, hrest⟩ := List.forall_mem_cons.1 h
    simp [Json.ofItems, decodeItems, TestRun.decode_toJson _ r hr, ih (n + 1) hrest, pure, Except.pure, bind, Except.bind]

theorem Result.decode_toJson {r : Result} (h : r.Storable) : Result.decode r.toJson = .ok r := by
  obtain ⟨compile, assembly, hash, runs⟩ := r
  obtain ⟨hcompile, -, -, hruns⟩ := h
  have hdraft : Draft.decode {} (Result.toJson ⟨compile, assembly, hash, runs⟩) =
      .ok { compile, assembly, assemblyHash := hash, runs } := by
    refine Decodes.append (b := { compile, assembly, assemblyHash := hash })
      (Decodes.append (b := { compile, assembly })
        (Decodes.append (b := { compile }) (decodes_member ?_) (decodes_textMember ?_ ?_))
        (decodes_textMember ?_ ?_)) ?_
    · simp [fieldOf?_of_mem, Execution.decode_toJson _ _ _ hcompile.2.2, pure, Except.pure, bind, Except.bind]
    · simp +decide [fieldOf?_of_mem, decodeText, pure, Except.pure, bind, Except.bind]
    · rintro rfl
      rfl
    · simp +decide [fieldOf?_of_mem, decodeText, pure, Except.pure, bind, Except.bind]
    · rintro rfl
      rfl
    · cases runs with
      | nil => exact decodes_nil
      | cons run rest =>
        refine decodes_member ?_
        have hitems := decodeItems_toJson ["runs"] 0 (run :: rest) fun r hr => (hruns r hr).2.2.2.2
        simp only [List.map_cons, Json.ofItems] at hitems
        simp +decide [fieldOf?_of_mem, Draft.decodeRuns, Json.list, Json.ofItems, hitems, pure, Except.pure, bind,
          Except.bind]
  rw [Result.decode, hdraft]
  rfl

/-- A stored result is read back as it was. -/
theorem Result.parse_render {r : Result} (h : r.Storable) : Result.parse r.render = .ok r := by
  have hdepth : r.toJson.depth ≤ Json.deepest := Nat.le_trans r.depth_toJson (by decide)
  rw [Result.parse, Result.render, Json.read_render (Result.plain_toJson h) hdepth]
  show (Result.decode r.toJson).mapError _ = _
  rw [Result.decode_toJson h]
  rfl

/-! ## Comparing them -/

theorem Execution.differences_self (ignored : List Text) (s : Subject) (e : Execution) :
    Execution.differences ignored s e e = [] := by
  simp [Execution.differences]

/-- Where names are distinct every run is the last one of its name. -/
theorem lastRun?_of_mem {runs : List TestRun} (hnames : (runs.map TestRun.name).Nodup) {r : TestRun} (hr : r ∈ runs) :
    lastRun? runs r.name = some r := by
  obtain ⟨got, hgot⟩ : ∃ got, lastRun? runs r.name = some got :=
    Option.isSome_iff_exists.1 (List.find?_isSome.2 ⟨r, List.mem_reverse.2 hr, by simp⟩)
  have hname : got.name = r.name := by simpa using List.find?_some hgot
  have hmem : got ∈ runs := List.mem_reverse.1 (List.mem_of_find?_eq_some hgot)
  rw [hgot, List.inj_on_of_nodup_map hnames hmem hr hname]

theorem Result.differences_self (ignored : List Text) {r : Result} (hnames : (r.runs.map TestRun.name).Nodup) :
    Result.differences ignored r r = [] := by
  have hruns : runDifferences ignored r.runs r.runs = [] := by
    unfold runDifferences
    split
    · rfl
    · refine List.flatMap_eq_nil_iff.2 fun run hrun => ?_
      rw [lastRun?_of_mem hnames hrun]
      exact Execution.differences_self ignored _ _
  simp [Result.differences, Execution.differences_self, hruns]

/-- The text that is stored for a result is read back as the result, and a file that leads to the same result again passes
against it, whatever lines are left out of account and however differences would be shown. -/
theorem golden_round_trip (d : Differ) (r : Result) (hr : r.Storable) (hnames : (r.runs.map TestRun.name).Nodup)
    (ignoreLines file : Text) :
    ∃ golden, Result.parse r.render = .ok golden ∧ golden = r ∧
      judge d (ignoredTexts ignoreLines) file golden r =
        { file, status := .pass, message := "All checks passed", expected := some r, actual := some r } := by
  refine ⟨r, Result.parse_render hr, rfl, ?_⟩
  simp [judge, Result.differences_self _ hnames]

/-- Shows one text behind the other. -/
def plainDiffer : Differ where
  texts expected actual := Text.unlines [expected, "+", actual]
  lines expected actual := Text.unlines (expected ++ actual)

/-- A result with every sort of character that is written in a way of its own, a negative exit code and a run without
input. -/
def oddResult : Result where
  compile := { stdout := "a\"b\\c/\t\n\r<&>\x08\x0c\x01\x7f", stderr := "\u2028é\u2029𝄞", exitCode := -2, duration := -1 }
  assembly := ".text\n"
  runs := [{ name := "no_input", result := { exitCode := 9223372036854775807, timedOut := true } },
    { name := "ü", input := "1\n", result := { stdout := "\u0000", exitCode := -9223372036854775808 } }]

theorem oddResult_round_trip :
    Result.parse oddResult.render = .ok oddResult ∧
      (judge plainDiffer (ignoredTexts "a,,b") "odd.aw" oddResult oddResult).status = .pass := by
  obtain ⟨golden, hread, rfl, hjudge⟩ :=
    golden_round_trip plainDiffer oddResult (by decide +kernel) (by decide +kernel) "a,,b" "odd.aw"
  exact ⟨hread, by rw [hjudge]⟩

end AlgolMips.Golden
