import AlgolMips.Proofs.Allocation
import AlgolMips.Proofs.Folding

/-!
# Scopes form a stack

Scopes are numbered in the order in which they are opened, and every scope is open or retired. The open ones form a stack:
their numbers grow from the outermost scope, which is number zero, to the innermost one, and each knows how many are around
it. A name means what the innermost open scope with that name says. What happens between the opening of a scope and its
closing leaves the scopes around it alone.
-/

namespace AlgolMips

/-! ## Names of a scope -/

/-- The names of a scope are folded, and none occurs twice. -/
structure Scope.WellNamed (s : Scope) : Prop where
  nodup : (s.vars.map Variable.name).Nodup
  folded : ∀ v ∈ s.vars, v.name.fold = v.name

namespace Scope

theorem find?_eq_none_iff {s : Scope} {name : Text} :
    s.find? name = none ↔ name.fold ∉ s.vars.map Variable.name := by
  simp [find?, List.find?_eq_none]

/-- A scope finds exactly its own variables, by their folded names. -/
theorem WellNamed.find?_eq_some_iff {s : Scope} (h : s.WellNamed) {name : Text} {v : Variable} :
    s.find? name = some v ↔ v ∈ s.vars ∧ v.name = name.fold := by
  constructor
  · intro hfind
    exact ⟨List.mem_of_find?_eq_some hfind, by simpa using List.find?_some hfind⟩
  · rintro ⟨hmem, hname⟩
    cases hfind : s.find? name with
    | none => exact absurd (hname ▸ List.mem_map_of_mem hmem) (find?_eq_none_iff.1 hfind)
    | some w =>
      have hw : w.name = name.fold := by simpa using List.find?_some hfind
      rw [List.inj_on_of_nodup_map h.nodup (List.mem_of_find?_eq_some hfind) hmem (hw.trans hname.symm)]

end Scope

/-! ## Stacks of scopes -/

namespace SymbolTable

/-- The open scopes of a table form a stack, and its scopes are numbered without a gap. -/
structure Stacked (t : SymbolTable) : Prop where
  /-- The scopes, open or retired, have the first numbers, each one of them. -/
  numbered : ((t.active ++ t.retired).map Scope.id).Perm (List.range (t.active ++ t.retired).length)
  outermost : (t.active.map Scope.id).head? = some 0
  ascending : (t.active.map Scope.id).Pairwise (· < ·)
  /-- The scope at a place of the stack has as many scopes around it. -/
  leveled : t.active.map Scope.level = List.range t.depth
  named : ∀ s ∈ t.active ++ t.retired, s.WellNamed

/-- The scope that is opened next. -/
def opened (t : SymbolTable) : Scope := ⟨t.depth + t.retired.length, t.depth, []⟩

theorem active_enter (t : SymbolTable) : t.enter.active = t.active ++ [t.opened] := by
  simp [active, enter, opened, openScopes]

theorem opened_id (t : SymbolTable) : t.opened.id = (t.active ++ t.retired).length := by
  simp [opened, depth, active]

theorem wellNamed_opened (t : SymbolTable) : t.opened.WellNamed := ⟨List.nodup_nil, by simp [opened]⟩

/-- A scope that is left was the last of the stack. -/
theorem active_leave {t : SymbolTable} (h : t.enclosing ≠ []) :
    t.active = t.leave.active ++ [t.innermost] ∧ t.leave.retired = t.retired ++ [t.innermost] := by
  obtain ⟨s, rest, hcons⟩ := List.exists_cons_of_ne_nil h
  rw [leave_of_enclosing hcons]
  simp [active, openScopes, hcons]

theorem leave_of_outermost {t : SymbolTable} (h : t.enclosing = []) : t.leave = t := by
  simp [leave, h]

theorem active_ne_nil (t : SymbolTable) : t.active ≠ [] := by
  simp [active, openScopes]

theorem active_eq (t : SymbolTable) : t.active = t.enclosing.reverse ++ [t.innermost] := by
  simp [active, openScopes]

theorem depth_eq (t : SymbolTable) : t.depth = t.active.length := by
  simp [depth, active]

theorem stacked_fresh : ({} : SymbolTable).Stacked where
  numbered := .refl _
  outermost := rfl
  ascending := List.pairwise_singleton ..
  leveled := rfl
  named s hs := by
    obtain rfl : s = ⟨0, 0, []⟩ := by simpa [active, openScopes] using hs
    exact ⟨List.nodup_nil, by simp⟩

namespace Stacked

variable {t : SymbolTable}

theorem id_lt (h : t.Stacked) {s : Scope} (hs : s ∈ t.active ++ t.retired) : s.id < (t.active ++ t.retired).length :=
  List.mem_range.1 (h.numbered.subset (List.mem_map_of_mem hs))

theorem enter (h : t.Stacked) : t.enter.Stacked where
  numbered := by
    have hmove : (t.active ++ [t.opened] ++ t.retired).Perm (t.opened :: (t.active ++ t.retired)) := by
      rw [List.append_assoc]
      exact List.perm_middle
    rw [active_enter, show t.enter.retired = t.retired from rfl, hmove.length_eq, List.length_cons, List.range_succ]
    refine (hmove.map _).trans ?_
    rw [List.map_cons, opened_id]
    exact (h.numbered.cons _).trans (List.perm_append_singleton _ _).symm
  outermost := by
    rw [active_enter, List.map_append, List.head?_append, h.outermost]
    rfl
  ascending := by
    rw [active_enter, List.map_append, List.pairwise_append]
    refine ⟨h.ascending, List.pairwise_singleton .., ?_⟩
    intro i hi j hj
    obtain ⟨s, hs, rfl⟩ := List.mem_map.1 hi
    obtain rfl : j = t.opened.id := List.mem_singleton.1 hj
    rw [opened_id]
    exact h.id_lt (List.mem_append_left _ hs)
  leveled := by
    rw [depth_eq, active_enter, List.map_append, h.leveled, List.length_append, ← depth_eq, List.length_singleton,
      List.range_succ]
    rfl
  named s hs := by
    rw [active_enter, List.append_assoc, List.mem_append, List.singleton_append, List.mem_cons] at hs
    rcases hs with hs | rfl | hs
    · exact h.named s (List.mem_append_left _ hs)
    · exact t.wellNamed_opened
    · exact h.named s (List.mem_append_right _ hs)

theorem leave (h : t.Stacked) : t.leave.Stacked := by
  by_cases henclosing : t.enclosing = []
  · rwa [leave_of_outermost henclosing]
  · obtain ⟨hactive, hretired⟩ := active_leave henclosing
    have hperm : (t.leave.active ++ t.leave.retired).Perm (t.active ++ t.retired) := by
      rw [hretired, hactive, List.append_assoc]
      exact (List.perm_append_comm.append_left _).trans (.of_eq (by simp))
    have hnonempty := t.leave.active_ne_nil
    exact {
      numbered := by
        rw [hperm.length_eq]
        exact (hperm.map _).trans h.numbered
      outermost := by
        have houter := h.outermost
        rw [hactive, List.map_append, List.head?_append_of_ne_nil _ (by simpa using hnonempty)] at houter
        exact houter
      ascending := by
        have hascending := h.ascending
        rw [hactive, List.map_append, List.pairwise_append] at hascending
        exact hascending.1
      leveled := by
        have hleveled := h.leveled
        rw [depth_eq, hactive, List.map_append, List.length_append, List.length_singleton, List.range_succ] at hleveled
        rw [depth_eq]
        exact List.append_inj_left' hleveled rfl
      named := fun s hs => h.named s (hperm.subset hs) }

/-- A declaration adds a name that the scope does not have, and changes no number. -/
theorem bind (h : t.Stacked) {v : Variable} (hfolded : v.name.fold = v.name)
    (hnew : v.name ∉ t.innermost.vars.map Variable.name) : (t.bind v).Stacked := by
  have hretired : (t.bind v).retired = t.retired := rfl
  have hids : (t.bind v).active.map Scope.id = t.active.map Scope.id := by
    simp [active_eq, SymbolTable.bind]
  have hlevels : (t.bind v).active.map Scope.level = t.active.map Scope.level := by
    simp [active_eq, SymbolTable.bind]
  have hlength : (t.bind v).active.length = t.active.length := by
    simp [active_eq, SymbolTable.bind]
  refine ⟨?_, hids ▸ h.outermost, hids ▸ h.ascending, ?_, ?_⟩
  · rw [List.map_append, hids, hretired, ← List.map_append, List.length_append, hlength, ← List.length_append]
    exact h.numbered
  · rw [hlevels, depth_eq, hlength, ← depth_eq]
    exact h.leveled
  · intro s hs
    rw [active_eq, List.append_assoc, List.mem_append, List.singleton_append, List.mem_cons] at hs
    have hactive := t.active_eq
    rcases hs with hs | rfl | hs
    · exact h.named s (List.mem_append_left _ (hactive ▸ List.mem_append_left _ hs))
    · have hinner := h.named t.innermost (by simp [hactive])
      refine ⟨?_, ?_⟩
      · show ((t.innermost.vars ++ [v]).map Variable.name).Nodup
        rw [List.map_append, List.map_singleton, ← List.concat_eq_append, List.nodup_concat]
        exact ⟨hnew, hinner.nodup⟩
      · intro w hw
        rcases List.mem_append.1 hw with hw | hw
        · exact hinner.folded w hw
        · rwa [List.mem_singleton.1 hw]
    · exact h.named s (List.mem_append_right _ hs)

/-- A scope is found by its number. -/
theorem scope?_eq_some_iff (h : t.Stacked) {i : Nat} {s : Scope} :
    t.scope? i = some s ↔ s ∈ t.active ++ t.retired ∧ s.id = i := by
  have hopen : ∀ {s : Scope}, s ∈ t.openScopes ++ t.retired ↔ s ∈ t.active ++ t.retired := by simp [active]
  have hnodup : ((t.active ++ t.retired).map Scope.id).Nodup := h.numbered.nodup_iff.2 List.nodup_range
  have hfound : ∀ {r : Scope}, t.scope? i = some r → r ∈ t.active ++ t.retired ∧ r.id = i := by
    intro r hr
    exact ⟨hopen.1 (List.mem_of_find?_eq_some hr), by simpa using List.find?_some hr⟩
  refine ⟨hfound, ?_⟩
  rintro ⟨hs, rfl⟩
  cases hfind : t.scope? s.id with
  | none =>
    have hne := List.find?_eq_none.1 hfind s (hopen.2 hs)
    simp at hne
  | some r => rw [List.inj_on_of_nodup_map hnodup (hfound hfind).1 hs (hfound hfind).2]

end Stacked

/-! ## Names in force -/

/-- A name is resolved in the innermost open scope that has it. -/
theorem resolve_eq_ok_iff {t : SymbolTable} {name : Text} {v : Variable} :
    t.resolve name = .ok v ↔ ∃ outer s inner, t.active = outer ++ s :: inner ∧ s.find? name = some v ∧
      ∀ r ∈ inner, name.fold ∉ r.vars.map Variable.name := by
  have hlookup : t.resolve name = .ok v ↔ lookup t.openScopes name = some v := by
    unfold resolve
    split <;> simp_all
  rw [hlookup, lookup, List.findSome?_eq_some_iff]
  constructor
  · rintro ⟨inner, s, outer, hopen, hfind, hnone⟩
    refine ⟨outer.reverse, s, inner.reverse, by simp [active, hopen], hfind, ?_⟩
    exact fun r hr => Scope.find?_eq_none_iff.1 (hnone r (List.mem_reverse.1 hr))
  · rintro ⟨outer, s, inner, hactive, hfind, hnone⟩
    have hopen : t.openScopes = inner.reverse ++ s :: outer.reverse := by
      rw [← List.reverse_reverse t.openScopes, ← active, hactive]
      simp
    refine ⟨inner.reverse, s, outer.reverse, hopen, hfind, ?_⟩
    exact fun r hr => Scope.find?_eq_none_iff.2 (hnone r (List.mem_reverse.1 hr))

/-- A declaration hides what would be in force without the innermost scope. -/
theorem shadowed?_eq (t : SymbolTable) (name : Text) :
    t.shadowed? name = if 1 < t.depth then (t.leave.resolve name).toOption else none := by
  cases henclosing : t.enclosing with
  | nil => simp [shadowed?, depth, openScopes, henclosing, lookup]
  | cons s rest =>
    rw [leave_of_enclosing henclosing, if_pos (by simp [depth, openScopes, henclosing]), shadowed?, henclosing, resolve]
    show lookup (s :: rest) name = _
    simp only [openScopes]
    split <;> simp_all [Except.toOption]

/-! ## Closed scopes -/

/-- From one table to another the scopes around the innermost one stay, and the innermost one is the same. -/
structure Around (before after : SymbolTable) : Prop where
  enclosing : after.enclosing = before.enclosing
  id : after.innermost.id = before.innermost.id

namespace Around

variable {t u : SymbolTable}

theorem refl (t : SymbolTable) : Around t t := ⟨rfl, rfl⟩

theorem trans {r : SymbolTable} (h : Around r t) (h' : Around t u) : Around r u :=
  ⟨h'.enclosing.trans h.enclosing, h'.id.trans h.id⟩

/-- Leaving the scope that was entered brings the open scopes back. -/
theorem leave (h : Around t.enter u) : u.leave.openScopes = t.openScopes := by
  rw [leave_of_enclosing (h.enclosing : u.enclosing = t.innermost :: t.enclosing)]
  rfl

end Around

end SymbolTable

/-- Calls that leave every scope that they enter, and no other. -/
inductive Balanced : List Call → Prop where
  | nil : Balanced []
  | call {c : Call} {rest : List Call} : c ≠ .enter → c ≠ .leave → Balanced rest → Balanced (c :: rest)
  | nested {inner rest : List Call} : Balanced inner → Balanced rest → Balanced (.enter :: inner ++ .leave :: rest)

namespace Session

theorem stacked_perform {s : Session} (h : s.table.Stacked) (c : Call) : (s.perform c).2.table.Stacked := by
  rcases s.perform_table c with ⟨-, heq⟩ | ⟨-, heq⟩ | ⟨-, -, heq | ⟨tok, ty, offset, hnone, heq⟩⟩
  · exact heq ▸ h.enter
  · exact heq ▸ h.leave
  · exact heq ▸ h
  · exact heq ▸ h.bind (Text.fold_fold _) (Scope.find?_eq_none_iff.1 hnone)

theorem stacked_run {s : Session} (h : s.table.Stacked) (calls : List Call) : (s.run calls).table.Stacked := by
  induction calls generalizing s with
  | nil => exact h
  | cons c rest ih => exact ih (stacked_perform h c)

/-- Each opening adds a scope, and nothing else does. -/
theorem scopes_perform (s : Session) (c : Call) :
    (s.perform c).2.table.scopes.length = s.table.scopes.length + [c].count .enter := by
  rcases s.perform_table c with ⟨rfl, heq⟩ | ⟨rfl, heq⟩ | ⟨hc, -, heq | ⟨tok, ty, offset, -, heq⟩⟩
  · rw [heq]
    simp [SymbolTable.scopes, SymbolTable.enter, SymbolTable.openScopes]
  · rw [heq, SymbolTable.scopes_leave.length_eq]
    rfl
  · rw [heq, List.count_singleton, if_neg (by simpa using hc)]
    rfl
  · rw [heq, List.count_singleton, if_neg (by simpa using hc)]
    rfl

theorem scopes_run (s : Session) (calls : List Call) :
    (s.run calls).table.scopes.length = s.table.scopes.length + calls.count .enter := by
  induction calls generalizing s with
  | nil => rfl
  | cons c rest ih =>
    rw [run, ih, scopes_perform, Nat.add_assoc, ← List.count_append]
    rfl

theorem around_run {calls : List Call} (h : Balanced calls) (s : Session) :
    SymbolTable.Around s.table (s.run calls).table := by
  induction h generalizing s with
  | nil => exact .refl _
  | @call c rest henter hleave _ ih =>
    refine SymbolTable.Around.trans ?_ (ih _)
    rcases s.perform_table c with ⟨heq, -⟩ | ⟨heq, -⟩ | ⟨-, -, heq | ⟨tok, ty, offset, -, heq⟩⟩
    · exact absurd heq henter
    · exact absurd heq hleave
    · exact heq ▸ .refl _
    · exact heq ▸ ⟨rfl, rfl⟩
  | @nested inner rest _ _ ihinner ihrest =>
    rw [List.cons_append, run, run_append]
    have hopen := (ihinner (s.perform .enter).2).leave
    have haround : SymbolTable.Around s.table (((s.perform .enter).2.run inner).perform .leave).2.table :=
      ⟨(List.cons.inj hopen).2, congrArg Scope.id (List.cons.inj hopen).1⟩
    exact haround.trans (ihrest _)

end Session

end AlgolMips
