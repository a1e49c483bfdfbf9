import AlgolMips.Proofs.Diagnostics
import AlgolMips.Proofs.OnePass

/-!
# Features change no code

Settings are asked while a translation goes on: a station is traced only on request, and a mismatch in a term fails the
translation or is recorded only. Under any two settings a translation makes the same moves, so it emits the same code and
leaves the same symbol table. Two records of these moves stay alike from one event to the next (`Record.Alike`), and nothing
but the trace and the success can tell the settings apart.

A translation succeeds under strict terms exactly when it leaves no diagnostic. Without them it succeeds exactly when all
its diagnostics are type mismatches at multiplicative operators, for these are the mismatches of terms.
-/

namespace AlgolMips

/-! ## Records under two settings -/

/-- Two records differ in the trace only if one is traced and the other is not, and in the success only if the first is
kept more strictly than the second. -/
structure Record.Alike (s s' : Settings) (r r' : Record) : Prop where
  untraced : s.feature .verboseTrace = false → r.trace = []
  trace : s.feature .verboseTrace = s'.feature .verboseTrace → r.trace = r'.trace
  ok : (s'.feature .strictTerm → s.feature .strictTerm) → r.ok → r'.ok

/-- Only the mismatches of terms may leave a program unfailed, where terms are not taken strictly. -/
theorem Fault.isFatal_eq_false_iff {s : Settings} {f : Fault} :
    f.isFatal s = false ↔ s.feature .strictTerm = false ∧ ∃ op left right, f = .multiplication op left right := by
  cases f with
  | multiplication op left right => exact ⟨fun h => ⟨h, op, left, right, rfl⟩, And.left⟩
  | expected | name | assignment | condition | addition | comparison | negation | reading => exact ⟨nofun, nofun⟩

namespace Record

variable {s s' : Settings} {r r' : Record}

/-- Alike records keep an event alike. -/
theorem Alike.keep (h : Alike s s' r r') (e : Event) : Alike s s' (r.keep s e) (r'.keep s' e) := by
  cases e with
  | note n =>
    unfold Record.keep
    cases hs : s.feature .verboseTrace <;> cases hs' : s'.feature .verboseTrace
    · exact h
    · exact { h with trace := fun heq => absurd (hs.symm.trans (heq.trans hs')) (by decide) }
    · exact { h with
        untraced := fun hoff => absurd (hs.symm.trans hoff) (by decide)
        trace := fun heq => absurd (hs.symm.trans (heq.trans hs')) (by decide) }
    · exact { h with
        untraced := fun hoff => absurd (hs.symm.trans hoff) (by decide)
        trace := fun heq => congrArg (· ++ [n.name]) (h.trace heq) }
  | fault d =>
    -- What passes under the stricter settings is a mismatch of terms that are not strict, and so it passes under both.
    refine { h with ok := fun hstrict hok => ?_ }
    obtain ⟨hr, hd⟩ := Bool.and_eq_true_iff.1 hok
    rw [Bool.not_eq_true', Fault.isFatal_eq_false_iff] at hd
    have hlax : s'.feature .strictTerm = false :=
      Bool.eq_false_iff.2 fun hs' => absurd (hd.1.symm.trans (hstrict hs')) (by decide)
    refine Bool.and_eq_true_iff.2 ⟨h.ok hstrict hr, ?_⟩
    rw [Bool.not_eq_true', Fault.isFatal_eq_false_iff]
    exact ⟨hlax, hd.2⟩
  | line | rule | remark => exact { h with }

theorem alike_ofEvents (s s' : Settings) (es : List Event) : Alike s s' (ofEvents s es) (ofEvents s' es) := by
  have hrun {r r' : Record} (h : Alike s s' r r') :
      Alike s s' (es.foldl (Record.keep s) r) (es.foldl (Record.keep s') r') := by
    induction es generalizing r r' with
    | nil => exact h
    | cons e rest ih => exact ih (h.keep e)
  exact hrun ⟨fun _ => rfl, fun _ => rfl, fun _ h => h⟩

end Record

/-! ## Success -/

theorem Lowering.succeeded_iff (t : Lowering) (s : Settings) :
    t.succeeded s ↔ ∀ d ∈ t.diagnostics, d.fault.isFatal s = false := by
  simp [succeeded]

theorem Lowering.succeeded_iff_of_strict (t : Lowering) {s : Settings} (h : s.feature .strictTerm) :
    t.succeeded s ↔ t.diagnostics = [] := by
  rw [succeeded_iff]
  constructor
  · intro hall
    refine List.eq_nil_iff_forall_not_mem.2 fun d hd => ?_
    have hlax := (Fault.isFatal_eq_false_iff.1 (hall d hd)).1
    exact absurd (h.symm.trans hlax) (by decide)
  · intro hnone d hd
    rw [hnone] at hd
    cases hd

theorem succeeded_lower_iff {s : Settings} (h : s.feature .strictTerm = false) (wordSize : Int64) (source : TokenSource) :
    (lower wordSize source).succeeded s ↔
      ∀ d ∈ (lower wordSize source).diagnostics, d.fault.kind = .typeMismatch ∧ d.token.kind = .mulOp := by
  rw [Lowering.succeeded_iff]
  refine forall₂_congr fun d hd => ?_
  rw [Fault.isFatal_eq_false_iff, and_iff_right h, (apt_lower wordSize source d hd).mulOp_iff]

/-! ## Translations under two settings -/

section

variable {settings settings' : Settings}

/-- Settings have no say in the moves of a translation. -/
theorem moves_translate_eq (h : settings.wordSize = settings'.wordSize) (source : TokenSource) :
    (translate settings source).work.log.toList.filterMap Action.move? =
      (translate settings' source).work.log.toList.filterMap Action.move? := by
  rw [(translate_logged settings source).moves, (translate_logged settings' source).moves, h]

theorem table_translate_eq (h : settings.wordSize = settings'.wordSize) (source : TokenSource) :
    (translate settings source).work.table = (translate settings' source).work.table := by
  have hcalls (s : Settings) : (translate s source).work.table = (Arena.new { wordSize := s.wordSize }).run
      (((translate s source).work.log.toList.filterMap Action.move?).filterMap Move.call?) := by
    rw [List.filterMap_filterMap]
    exact (congrArg Work.table (translate_logged s source).work).trans (Work.table_run ..)
  rw [hcalls, hcalls, moves_translate_eq h, h]

end

/-- Features change no code. Under any two settings with the same size of slots, translating a source makes the same moves
and leaves the same lines, derivation, diagnostics, remarks, symbol table and tokens. Nothing is traced without being asked
for, and what is traced depends on no other switch. Under strict terms a translation succeeds exactly when it leaves no
diagnostic, and then it succeeds under all settings. Without them it succeeds exactly when all its diagnostics are type
mismatches of terms. The code is written out after a success, or, unless only a success counts, when no token is left. -/
theorem features_change_no_code (settings settings' : Settings) (hsize : settings.wordSize = settings'.wordSize)
    (source : TokenSource) :
    let t := translate settings source
    let t' := translate settings' source
    t.work.log.toList.filterMap Action.move? = t'.work.log.toList.filterMap Action.move? ∧
    (t.work.lines = t'.work.lines ∧ t.work.derivation = t'.work.derivation ∧ t.work.diagnostics = t'.work.diagnostics ∧
      t.work.remarks = t'.work.remarks ∧ t.work.table = t'.work.table ∧ t.source = t'.source) ∧
    (settings.feature .verboseTrace = false → t.work.trace = #[]) ∧
    (settings.feature .verboseTrace = settings'.feature .verboseTrace → t.work.trace = t'.work.trace) ∧
    (settings.feature .strictTerm = true →
      (t.work.ok ↔ t.work.diagnostics = #[]) ∧ (t.work.ok → t'.work.ok)) ∧
    (settings.feature .strictTerm = false →
      (t.work.ok ↔ ∀ d ∈ t.work.diagnostics, d.fault.kind = .typeMismatch ∧ d.token.kind = .mulOp)) ∧
    (∀ d ∈ t.work.diagnostics, d.Apt) ∧
    (settings.feature .strictOutput = true → t.shouldFlush settings = t.work.ok) ∧
    (settings.feature .strictOutput = false → t.shouldFlush settings = (t.exhausted || t.work.ok)) := by
  intro t t'
  have ht : t.Agrees settings _ := translate_agrees settings source
  have ht' : t'.Agrees settings' _ := translate_agrees settings' source
  have hrecord := record_translate settings source
  have hrecord' := record_translate settings' source
  have hsource : t.source = t'.source := by rw [(goes_translate settings source).source, (goes_translate settings' source).source]
  have halike := Record.alike_ofEvents settings settings' (lower settings.wordSize source).events
  rw [← hsize] at ht' hrecord'
  rw [← hrecord, ← hrecord'] at halike
  refine ⟨moves_translate_eq hsize source, ⟨?_, ?_, ?_, ?_, table_translate_eq hsize source, hsource⟩, ?_, ?_, ?_, ?_, ?_, ?_, ?_⟩
  · exact Array.toList_inj.1 (ht.lines.trans ht'.lines.symm)
  · exact Array.toList_inj.1 (ht.derivation.trans ht'.derivation.symm)
  · exact Array.toList_inj.1 (ht.diagnostics.trans ht'.diagnostics.symm)
  · exact Array.toList_inj.1 (ht.remarks.trans ht'.remarks.symm)
  · exact fun hoff => Array.toList_eq_nil_iff.1 (halike.untraced hoff)
  · exact fun hsame => Array.toList_inj.1 (halike.trace hsame)
  · intro hstrict
    refine ⟨?_, halike.ok fun _ => hstrict⟩
    rw [ht.ok, Lowering.succeeded_iff_of_strict _ hstrict, ← ht.diagnostics, Array.toList_eq_nil_iff]
  · intro hlax
    rw [ht.ok, succeeded_lower_iff hlax, ← ht.diagnostics]
    simp only [Array.mem_toList_iff]
  · intro d hd
    refine apt_lower settings.wordSize source d ?_
    rw [← ht.diagnostics]
    exact Array.mem_toList_iff.2 hd
  · exact fun hstrict => if_pos hstrict
  · intro hlax
    rw [Translator.shouldFlush, hlax]
    rfl

/-- A number and a truth value are multiplied, and what stands for the product is a truth value. -/
def mixedProduct : Program :=
  .block (.plain .begin "begin")
    (.next (.declare (.plain .typeName "logical") (.plain .ident "b")) (.plain .semi ";")
      (.last (.assign (.plain .ident "b") (.plain .assign ":=")
        (.term (.mul (.relation (.factor (.literal (.plain .literal "2")))) (.plain .mulOp "*")
          (.factor (.name (.plain .ident "b"))))))))
    (.plain .end "end") (.plain .dot ".")

/-- The mismatch fails the translation only under strict terms, and the code is the same. -/
theorem mixedProduct_switches :
    let strict := ({} : Settings).setFeature .strictTerm true
    let source : TokenSource := { tokens := mixedProduct.tokens }
    strict.wordSize = ({} : Settings).wordSize ∧ (translate strict source).work.ok = false ∧
      (translate {} source).work.ok = true ∧ (translate {} source).work.lines = (translate strict source).work.lines ∧
      (translate {} source).work.diagnostics.map Diagnostic.token = #[.plain .mulOp "*"] := by
  intro strict source
  have hv : mixedProduct.Valid := ⟨rfl, ⟨⟨rfl, rfl⟩, rfl, ⟨rfl, rfl, rfl, rfl, rfl⟩, nofun⟩, rfl, rfl⟩
  have hdiagnostics : (lower 4 source).diagnostics =
      [⟨.plain .mulOp "*", .multiplication "*" .integer .logical⟩] := by
    rw [lower_tokens hv]
    decide +kernel
  have hfound (s : Settings) (hs : s.wordSize = 4) : (translate s source).work.diagnostics =
      #[⟨.plain .mulOp "*", .multiplication "*" .integer .logical⟩] := by
    refine Array.toList_inj.1 ?_
    rw [(translate_agrees s source).diagnostics, hs, hdiagnostics]
  obtain ⟨-, -, -, -, hstrict, -⟩ := features_change_no_code strict {} rfl source
  obtain ⟨-, hsame, -, -, -, hlax, -⟩ := features_change_no_code {} strict rfl source
  refine ⟨rfl, ?_, ?_, hsame.1, by simp [hfound {} rfl]⟩
  · rw [Bool.eq_false_iff, ne_eq, (hstrict rfl).1, hfound strict rfl]
    nofun
  · rw [hlax rfl, hfound {} rfl]
    decide

end AlgolMips
