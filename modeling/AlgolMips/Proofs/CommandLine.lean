import AlgolMips.Proofs.Spelling

/-!
# Command lines in full

A line that is read without a mistake is a sequence of arguments and spelled settings, but for one thing: what stands
behind the shorthand of a switch is passed over. So the words of an accepted line are all accounted for, and the texts
without a meaning are known (`exists_reads_of_parseRest`). On a set of plain names a line means one thing only
(`Reads.unique`), so an accepted line is read in full or it is not.
-/

namespace AlgolMips.Options

open FlagSet

variable {s : FlagSet} {word : Text} {words : List Text} {f : Flag} {t : Text} {v : FlagValue}

/-! ## What a word was -/

/-- What a word must have been to be read in this way. -/
def FlagSet.Reading.Accounts (s : FlagSet) (word : Text) : Reading → Prop
  | .argument => IsArgument word
  | .terminator => word = "--"
  | .value f t => ∀ v, assigned f.value t = .ok v →
      Spells s.signature [word] f.name v ∨ v = .switch true ∧ ∃ u, Overlong s.signature word f.name u
  | .needsValue f _ => ∀ t v, assigned f.value t = .ok v → Spells s.signature [word, t] f.name v
  | .mistake _ => True

namespace FlagSet

theorem isSwitch?_of_lookup {name : Text} (hf : s.lookup name = some f) {b : Bool} (hb : f.value.isSwitch = b) :
    s.signature.isSwitch? name = some b := hb ▸ congrArg (Option.map _) hf

/-- A text that a switch takes is empty or a truth value. -/
theorem assigned_switch_cases {old : FlagValue} (h : old.isSwitch = true) (hv : assigned old t = .ok v) :
    t = "" ∧ v = .switch true ∨ ∃ on, parseBool? t = some on ∧ v = .switch on := by
  cases old with
  | text u => cases h
  | switch old =>
    rw [assigned] at hv
    split at hv
    · next hempty =>
      cases hv
      exact .inl ⟨congrArg Text.mk (List.isEmpty_iff.1 hempty), rfl⟩
    · split at hv
      · next on hon =>
        cases hv
        exact .inr ⟨on, hon, rfl⟩
      · cases hv

theorem accounts_bare (d : Dashes) {name : Text} (hf : s.lookup name = some f) :
    Reading.Accounts s (d.text ++ name)
      (if f.value.isSwitch then .value f "" else .needsValue f (d.text ++ name)) := by
  cases hkind : f.value.isSwitch with
  | true =>
    intro v hv
    rw [assigned_empty hkind] at hv
    cases hv
    rw [(lookup_eq_some hf).2]
    exact .inl (.switch d (isSwitch?_of_lookup hf hkind))
  | false =>
    intro t v hv
    rw [assigned_text hkind] at hv
    cases hv
    rw [(lookup_eq_some hf).2]
    exact .apart d t (isSwitch?_of_lookup hf hkind)

theorem accounts_joined (d : Dashes) {name : Text} (hf : s.lookup name = some f) (t : Text) :
    Reading.Accounts s (d.text ++ name ++ "=" ++ t) (.value f t) := by
  intro v hv
  rw [(lookup_eq_some hf).2]
  cases hkind : f.value.isSwitch with
  | false =>
    rw [assigned_text hkind] at hv
    cases hv
    exact .inl (.joined d t (isSwitch?_of_lookup hf hkind))
  | true =>
    have hk := isSwitch?_of_lookup hf hkind
    rcases assigned_switch_cases hkind hv with ⟨rfl, rfl⟩ | ⟨on, hon, rfl⟩
    · exact .inl (.blank d hk)
    · exact .inl (.truth d hk hon)

theorem accounts_readNamed (s : FlagSet) (d : Dashes) (body : Text) :
    (s.readNamed d.text body).Accounts s (d.text ++ body) := by
  unfold readNamed
  rcases hcut : body.cut 0x3D with ⟨name, given⟩
  dsimp only
  split
  · trivial
  · cases hf : s.lookup name with
    | none => trivial
    | some f =>
      cases given with
      | some t =>
        have hbody : body = name ++ "=" ++ t := by
          rw [Text.append_assoc]
          exact congrArg Text.mk (Text.bytes_of_cut hcut)
        rw [hbody, ← Text.append_assoc, ← Text.append_assoc]
        exact accounts_joined d hf t
      | none =>
        rw [Text.eq_of_cut hcut]
        exact accounts_bare d hf

theorem accounts_readShort (x : UInt8) {rest : Text} (hrest : s.signature.Unnamed x rest) :
    (s.readShort ⟨[x]⟩ rest).Accounts s ⟨0x2D :: x :: rest.bytes⟩ := by
  unfold readShort
  cases hshort : s.lookupShort ⟨[x]⟩ with
  | none => trivial
  | some f =>
    obtain ⟨name, hnamed, hf⟩ := Option.bind_eq_some_iff.1 hshort
    obtain ⟨-, rfl⟩ := lookup_eq_some hf
    dsimp only
    cases hkind : f.value.isSwitch with
    | true =>
      intro v hv
      rw [assigned_empty hkind] at hv
      cases hv
      have hk := isSwitch?_of_lookup hf hkind
      by_cases hne : rest = ""
      · subst hne
        exact .inl (.letter hnamed hk hrest)
      · exact .inr ⟨rfl, rest, x, rfl, hnamed, hk, hrest, hne⟩
    | false =>
      have hk := isSwitch?_of_lookup hf hkind
      cases hempty : rest.isEmpty with
      | true =>
        obtain rfl : rest = "" := congrArg Text.mk (List.isEmpty_iff.1 hempty)
        intro t v hv
        rw [assigned_text hkind] at hv
        cases hv
        exact .letterApart t hnamed hk hrest
      | false =>
        intro v hv
        rw [assigned_text hkind] at hv
        cases hv
        refine .inl (.letterJoined hnamed hk hrest fun hne => ?_)
        rw [hne] at hempty
        cases hempty

/-- Every word is what it is read as. -/
theorem accounts_read (s : FlagSet) (word : Text) : (s.read word).Accounts s word := by
  obtain ⟨bytes⟩ := word
  unfold read
  split
  · next b rest heq =>
    cases heq
    by_cases hb : b = 0x2D
    · subst hb
      cases rest with
      | nil => rfl
      | cons c rest => exact accounts_readNamed s .two ⟨c :: rest⟩
    · rw [if_neg hb]
      split
      · exact accounts_readNamed s .one ⟨b :: rest⟩
      · next hnone =>
        exact accounts_readShort b (Option.map_eq_none_iff.2 (Option.not_isSome_iff_eq_none.1 hnone))
  · next hshape =>
    cases bytes with
    | nil => exact .inl Nat.two_pos
    | cons a rest =>
      cases rest with
      | nil => exact .inl (Nat.lt_succ_self 1)
      | cons b rest => exact .inr fun h => hshape b rest (by simpa using h)

end FlagSet

/-! ## What a line was -/

theorem FlagSet.assign_cases {s' : FlagSet} (h : s.assign f t = .ok s') :
    ∃ v, assigned f.value t = .ok v ∧ s' = s.after [] [(f.name, v)] := by
  cases hv : assigned f.value t with
  | error e =>
    rw [assign, hv] at h
    cases h
  | ok v =>
    rw [assign_eq hv] at h
    cases h
    exact ⟨v, rfl, rfl⟩

/-- The words of a line that is read without a mistake are accounted for, and what is read is what they mean. -/
theorem exists_reads_of_parseRest (h : (s.parseRest words).2 = none) :
    ∃ args settings ignored, Reads s.signature words args settings ignored ∧
      s.parseRest words = (s.after args settings, none) := by
  -- The induction follows the reader, which takes one word or two and goes on with another set of the same signature.
  fun_induction s.parseRest words with
  | case1 s => exact ⟨[], [], [], .done, by rw [after_nil]⟩
  | case2 s word rest hread ih =>
    obtain ⟨args, settings, ignored, hrest, heq⟩ := ih h
    have hword := s.accounts_read word
    rw [hread] at hword
    have hafter : { s with args := s.args ++ [word] } = s.after [word] [] := by simp [after, settle]
    rw [hafter] at hrest heq ⊢
    rw [signature_after (by simp)] at hrest
    rw [after_after] at heq
    exact ⟨word :: args, settings, ignored, .argument hword hrest, heq⟩
  | case3 s word rest hread =>
    have hword := s.accounts_read word
    rw [hread] at hword
    obtain rfl : word = "--" := hword
    exact ⟨rest, [], [], .ending rest, by simp [after, settle]⟩
  | case5 s word rest f t hread s' hassign ih =>
    obtain ⟨args, settings, ignored, hrest, heq⟩ := ih h
    obtain ⟨v, hv, rfl⟩ := assign_cases hassign
    have hword := s.accounts_read word
    rw [hread] at hword
    rw [after_after] at heq
    rcases hword v hv with hspells | ⟨rfl, u, hoverlong⟩
    · rw [signature_after (List.forall_mem_singleton.2 hspells.isSwitch?_eq)] at hrest
      exact ⟨args, (f.name, v) :: settings, ignored, .setting hspells hrest, heq⟩
    · rw [signature_after (List.forall_mem_singleton.2 hoverlong.isSwitch?_eq)] at hrest
      exact ⟨args, (f.name, .switch true) :: settings, u :: ignored, .overlong hoverlong hrest, heq⟩
  | case8 s word f spelling hread t rest s' hassign ih =>
    obtain ⟨args, settings, ignored, hrest, heq⟩ := ih h
    obtain ⟨v, hv, rfl⟩ := assign_cases hassign
    have hword := s.accounts_read word
    rw [hread] at hword
    rw [after_after] at heq
    have hspells := hword t v hv
    rw [signature_after (List.forall_mem_singleton.2 hspells.isSwitch?_eq)] at hrest
    exact ⟨args, (f.name, v) :: settings, ignored, .setting hspells hrest, heq⟩
  | case4 | case6 | case7 | case9 => cases h

/-! ## One meaning -/

/-- A word that begins with a long name is no shorthand. -/
theorem long_ne_letter {σ : Signature} (hσ : σ.Plain) (d : Dashes) {name rest t : Text} {b : Bool}
    (hk : σ.isSwitch? name = some b) (hrest : rest = "" ∨ rest.bytes.head? = some 0x3D) {x : UInt8} (hx : x ≠ 0x2D)
    (hu : σ.Unnamed x t) : d.text ++ name ++ rest ≠ ⟨0x2D :: x :: t.bytes⟩ := by
  intro heq
  cases d with
  | two =>
    have hbytes := congrArg Text.bytes heq
    exact hx (List.cons.inj (List.cons.inj hbytes).2).1.symm
  | one =>
    have hbody : name ++ rest = ⟨x :: t.bytes⟩ := congrArg Text.mk (List.cons.inj (congrArg Text.bytes heq)).2
    rw [Signature.Unnamed, ← hbody, (hσ.name hk).cut_append hrest, hk] at hu
    cases hu

/-- What is spelled in one word is not overlong. -/
theorem Spells.not_overlong {σ : Signature} (hσ : σ.Plain) {name name' : Text} (h : Spells σ [word] name v) :
    ¬ Overlong σ word name' t := by
  rintro ⟨x, hword, hx, hk', hu, ht⟩
  have hne := hσ.letter hx
  cases h with
  | switch d hk => exact long_ne_letter hσ d hk (.inl rfl) hne hu ((Text.append_empty _).trans hword)
  | truth d hk | blank d hk | joined d _ hk =>
    exact long_ne_letter hσ d hk (.inr rfl) hne hu ((Text.append_assoc ..).symm.trans hword)
  | letter =>
    cases t
    cases hword
    exact ht rfl
  | letterJoined hy hk =>
    cases t
    cases hword
    rw [hx] at hy
    cases hy
    rw [hk'] at hk
    cases hk

theorem Overlong.text_eq {σ : Signature} {name name' u : Text} (h : Overlong σ word name t)
    (h' : Overlong σ word name' u) : u = t := by
  obtain ⟨x, rfl, -⟩ := h
  obtain ⟨x', heq, -⟩ := h'
  exact congrArg Text.mk (List.cons.inj (List.cons.inj (congrArg Text.bytes heq)).2).2.symm

/-- What a line with a meaning is, by how its first word is read. -/
def FlagSet.Reading.Begins (s : FlagSet) (word : Text) (words args : List Text) (settings : List (Text × FlagValue))
    (ignored : List Text) : Reading → Prop
  | .argument => ∃ args', args = word :: args' ∧ Reads s.signature words args' settings ignored
  | .terminator => args = words ∧ settings = [] ∧ ignored = []
  | .value f t => ∃ v settings', assigned f.value t = .ok v ∧ settings = (f.name, v) :: settings' ∧
      (Spells s.signature [word] f.name v ∧ Reads s.signature words args settings' ignored ∨
        ∃ u ignored', Overlong s.signature word f.name u ∧ ignored = u :: ignored' ∧
          Reads s.signature words args settings' ignored')
  | .needsValue f _ => ∃ t rest v settings', words = t :: rest ∧ assigned f.value t = .ok v ∧
      settings = (f.name, v) :: settings' ∧ Reads s.signature rest args settings' ignored
  | .mistake _ => False

section Meaning

variable {args args' ignored ignored' : List Text} {settings settings' : List (Text × FlagValue)}

theorem Reads.begins (hs : s.signature.Plain) (h : Reads s.signature (word :: words) args settings ignored) :
    (s.read word).Begins s word words args settings ignored := by
  generalize hline : word :: words = line at h
  cases h with
  | done => cases hline
  | ending rest =>
    cases hline
    exact ⟨rfl, rfl, rfl⟩
  | argument hword hrest =>
    cases hline
    rw [read_argument hword]
    exact ⟨_, rfl, hrest⟩
  | setting hspells hrest =>
    obtain ⟨f, t, rfl, hv, ⟨w, rfl, hread⟩ | ⟨w, spelling, rfl, hread⟩⟩ := hspells.takes hs
    · cases hline
      rw [hread]
      exact ⟨_, _, hv, rfl, .inl ⟨hspells, hrest⟩⟩
    · cases hline
      rw [hread]
      exact ⟨t, _, _, _, rfl, hv, rfl, hrest⟩
  | overlong hword hrest =>
    cases hline
    obtain ⟨f, rfl, hkind, ⟨w, hw, hread⟩ | ⟨w, spelling, hw, -⟩⟩ := hword.takes hs
    · cases hw
      rw [hread]
      exact ⟨_, _, assigned_empty hkind, rfl, .inr ⟨_, _, hword, rfl, hrest⟩⟩
    · cases hw

theorem Reads.nil_cases {σ : Signature} (h : Reads σ [] args settings ignored) :
    args = [] ∧ settings = [] ∧ ignored = [] := by
  generalize hline : [] = line at h
  cases h with
  | done => exact ⟨rfl, rfl, rfl⟩
  | setting hspells => cases hspells <;> cases hline
  | ending | argument | overlong => cases hline

/-- On a set of plain names a line has one meaning. -/
theorem Reads.unique (hs : s.signature.Plain) (h : Reads s.signature words args settings ignored)
    (h' : Reads s.signature words args' settings' ignored') :
    args' = args ∧ settings' = settings ∧ ignored' = ignored := by
  -- The number of words counts, since a setting may take two of them.
  induction hn : words.length using Nat.strong_induction_on generalizing words args args' settings settings' ignored
    ignored' with
  | _ n ih =>
  subst hn
  cases words with
  | nil =>
    obtain ⟨rfl, rfl, rfl⟩ := h.nil_cases
    exact h'.nil_cases
  | cons word rest =>
    have hbegins := h.begins hs
    have hbegins' := h'.begins hs
    cases hread : s.read word <;> rw [hread] at hbegins hbegins'
    case argument =>
      obtain ⟨_, rfl, hrest⟩ := hbegins
      obtain ⟨_, rfl, hrest'⟩ := hbegins'
      obtain ⟨rfl, hsame⟩ := ih _ (Nat.lt_succ_self _) hrest hrest' rfl
      exact ⟨rfl, hsame⟩
    case terminator =>
      obtain ⟨rfl, rfl, rfl⟩ := hbegins
      exact hbegins'
    case value f t =>
      obtain ⟨v, _, hv, rfl, hfirst⟩ := hbegins
      obtain ⟨v', _, hv', rfl, hfirst'⟩ := hbegins'
      rw [hv] at hv'
      cases hv'
      rcases hfirst with ⟨hspells, hrest⟩ | ⟨u, _, hword, rfl, hrest⟩ <;>
        rcases hfirst' with ⟨hspells', hrest'⟩ | ⟨u', _, hword', rfl, hrest'⟩
      · obtain ⟨rfl, rfl, rfl⟩ := ih _ (Nat.lt_succ_self _) hrest hrest' rfl
        exact ⟨rfl, rfl, rfl⟩
      · exact absurd hword' (hspells.not_overlong hs)
      · exact absurd hword (hspells'.not_overlong hs)
      · obtain ⟨rfl, rfl, rfl⟩ := ih _ (Nat.lt_succ_self _) hrest hrest' rfl
        rw [hword.text_eq hword']
        exact ⟨rfl, rfl, rfl⟩
    case needsValue f spelling =>
      obtain ⟨t, back, v, _, rfl, hv, rfl, hrest⟩ := hbegins
      obtain ⟨_, _, v', _, heq, hv', rfl, hrest'⟩ := hbegins'
      cases heq
      rw [hv] at hv'
      cases hv'
      have hless : back.length < (word :: t :: back).length := Nat.lt_succ_of_lt (Nat.lt_succ_self _)
      obtain ⟨rfl, rfl, rfl⟩ := ih _ hless hrest hrest' rfl
      exact ⟨rfl, rfl, rfl⟩
    case mistake e => exact hbegins.elim

/-- Where no shorthand belongs to a switch, no text is without a meaning. -/
theorem Reads.ignored_eq_nil {σ : Signature} (hσ : ∀ x name, σ.named? x = some name → σ.isSwitch? name ≠ some true)
    (h : Reads σ words args settings ignored) : ignored = [] := by
  induction h with
  | done | ending => rfl
  | argument _ _ ih | setting _ _ ih => exact ih
  | overlong hword =>
    obtain ⟨x, -, hx, hk, -⟩ := hword
    exact absurd hk (hσ x _ hx)

end Meaning

/-- An accepted line is accounted for. Its words are arguments, settings in their documented spellings, and shorthands of
switches with a text behind them. Such a text has no part in what is read, and all else has: the line is read in full
exactly if there is no such text. So every accepted line is read in full where no shorthand belongs to a switch. -/
theorem accepted_line_accounted (s : FlagSet) (words : List Text) (h : (s.parse words).2 = none) :
    ∃ args settings ignored,
      Reads s.signature words args settings ignored ∧
      s.parse words =
        ({ s with
            flags := s.flags.map fun f => { f with value := (settings.reverse.lookup f.name).getD f.value }
            args := args
            visited := settings.map Prod.fst }, none) ∧
      (s.Plain → ((∃ args' settings', Reads s.signature words args' settings' []) ↔ ignored = [])) ∧
      ((∀ x name, s.signature.named? x = some name → s.signature.isSwitch? name ≠ some true) → ignored = []) := by
  obtain ⟨args, settings, ignored, hreads, heq⟩ := exists_reads_of_parseRest h
  refine ⟨args, settings, ignored, hreads, heq, fun hs => ⟨?_, ?_⟩, fun hno => hreads.ignored_eq_nil hno⟩
  · rintro ⟨args', settings', hfull⟩
    exact (hfull.unique hs.signature hreads).2.2
  · rintro rfl
    exact ⟨args, settings, hreads⟩

/-- A switch is on, whatever is said behind its shorthand. -/
theorem sampleFlags_accounted :
    let words : List Text := ["-tq", "-o", "-t", "a.alw"]
    (sampleFlags.parse words).2 = none ∧ ∃ args settings ignored,
      Reads sampleFlags.signature words args settings ignored ∧
      (sampleFlags.parse words).1.args = args ∧ (sampleFlags.parse words).1.visited = settings.map Prod.fst := by
  intro words
  have haccepted : (sampleFlags.parse words).2 = none := by decide
  obtain ⟨args, settings, ignored, hreads, heq, -⟩ := accepted_line_accounted sampleFlags words haccepted
  exact ⟨haccepted, args, settings, ignored, hreads, by rw [heq], by rw [heq]⟩

/-- A line is accepted that switches a flag on where it says to switch it off, and that cannot be read in full. -/
theorem switched_on_against_text :
    (sampleFlags.parse ["-t=false"]).2 = none ∧ (sampleFlags.parse ["-t=false"]).1.isOn "tokens" ∧
      ¬ ∃ args settings, Reads sampleFlags.signature ["-t=false"] args settings [] := by
  refine ⟨by decide, by decide, ?_⟩
  rintro ⟨args, settings, hfull⟩
  have hreads : Reads sampleFlags.signature ["-t=false"] [] [("tokens", .switch true)] ["=false"] :=
    .overlong ⟨0x74, rfl, by decide, by decide, by decide, by decide⟩ .done
  cases (hreads.unique sampleFlags_plain.signature hfull).2.2

end AlgolMips.Options
