import AlgolMips.Scope.Arena
import AlgolMips.Proofs.ScopeStack

/-!
# The arena refines a stack of scopes

The arena works with numbers and tables by name, a stack of scopes with the scopes themselves. What an arena stands for is
the stack of what its scopes hold (`Arena.stack`). Every call does to the stack what it does to the arena, and has the same
answer (`Arena.perform_refines`), as long as numbers and names are kept in order (`Arena.Valid`), which every call does.
-/

namespace AlgolMips

/-! ## Scopes in memory -/

namespace ScopeRecord

/-- The names of a scope are folded, none occurs twice, and its variables stand under exactly these names. -/
structure Keyed (r : ScopeRecord) : Prop where
  nodup : r.names.toList.Nodup
  folded : ∀ name ∈ r.names, name.fold = name
  keys : ∀ name : Text, name ∈ r.names ↔ name ∈ r.vars
  named : ∀ (name : Text) (v : Variable), r.vars[name]? = some v → v.name = name

theorem keyed_empty (id level : Nat) : ({ id, level } : ScopeRecord).Keyed where
  nodup := List.nodup_nil
  folded := by simp
  keys := by simp
  named := by simp

variable {r : ScopeRecord} {v : Variable}

@[simp] theorem id_view (r : ScopeRecord) : r.view.id = r.id := rfl

@[simp] theorem level_view (r : ScopeRecord) : r.view.level = r.level := rfl

/-- What a scope holds are the variables under its names. -/
theorem Keyed.mem_view_iff (h : r.Keyed) : v ∈ r.view.vars ↔ r.vars[v.name]? = some v := by
  simp only [view, List.mem_filterMap, Array.mem_toList_iff]
  constructor
  · rintro ⟨name, -, hv⟩
    rwa [h.named name v hv]
  · intro hv
    exact ⟨v.name, (h.keys v.name).2 (Std.HashMap.mem_iff_isSome_getElem?.2 (by simp [hv])), hv⟩

theorem Keyed.map_name_view (h : r.Keyed) : r.view.vars.map Variable.name = r.names.toList := by
  have hall : ∀ name ∈ r.names.toList, ∃ v, r.vars[name]? = some v ∧ v.name = name := by
    intro name hname
    have hmem := (h.keys name).1 (Array.mem_toList_iff.1 hname)
    obtain ⟨v, hv⟩ := Option.isSome_iff_exists.1 (Std.HashMap.mem_iff_isSome_getElem?.1 hmem)
    exact ⟨v, hv, h.named name v hv⟩
  simp only [view]
  generalize r.names.toList = names at hall
  induction names with
  | nil => rfl
  | cons name rest ih =>
    obtain ⟨⟨v, hv, hname⟩, hrest⟩ := List.forall_mem_cons.1 hall
    rw [List.filterMap_cons, hv, List.map_cons, ih hrest, hname]

theorem Keyed.wellNamed (h : r.Keyed) : r.view.WellNamed where
  nodup := h.map_name_view ▸ h.nodup
  folded w hw := by
    have hname : w.name ∈ r.names.toList := h.map_name_view ▸ List.mem_map_of_mem hw
    exact h.folded _ (Array.mem_toList_iff.1 hname)

/-- A name is found in a scope as in the list of what it holds. -/
theorem Keyed.find?_view (h : r.Keyed) (name : Text) : r.view.find? name = r.find? name := by
  refine Option.ext fun w => ?_
  rw [h.wellNamed.find?_eq_some_iff, h.mem_view_iff, ScopeRecord.find?]
  constructor
  · rintro ⟨hw, hname⟩
    rwa [← hname]
  · intro hw
    have hname := h.named _ _ hw
    exact ⟨by rwa [hname], hname⟩

theorem Keyed.not_mem_names (h : r.Keyed) {name : Text} (hnew : r.vars[name]? = none) : name ∉ r.names := by
  rw [h.keys, Std.HashMap.mem_iff_isSome_getElem?, hnew]
  simp

theorem Keyed.bind (h : r.Keyed) (hfolded : v.name.fold = v.name) (hnew : r.vars[v.name]? = none) : (r.bind v).Keyed := by
  have hfresh := h.not_mem_names hnew
  constructor
  · show (r.names.push v.name).toList.Nodup
    rw [Array.toList_push, ← List.concat_eq_append, List.nodup_concat]
    exact ⟨fun hmem => hfresh (Array.mem_toList_iff.1 hmem), h.nodup⟩
  · intro name hname
    rcases Array.mem_push.1 hname with hname | rfl
    · exact h.folded name hname
    · exact hfolded
  · intro name
    show name ∈ r.names.push v.name ↔ name ∈ r.vars.insert v.name v
    rw [Array.mem_push, Std.HashMap.mem_insert, h.keys, beq_iff_eq, or_comm, eq_comm]
  · intro name w hw
    replace hw : (r.vars.insert v.name v)[name]? = some w := hw
    rw [Std.HashMap.getElem?_insert] at hw
    split at hw
    · next heq =>
      rw [← Option.some.inj hw]
      exact beq_iff_eq.1 heq
    · exact h.named name w hw

/-- A new variable comes behind the others. -/
theorem Keyed.view_bind (h : r.Keyed) (hnew : r.vars[v.name]? = none) :
    (r.bind v).view = { r.view with vars := r.view.vars ++ [v] } := by
  have hfresh := h.not_mem_names hnew
  have hothers : r.names.toList.filterMap (fun name => (r.vars.insert v.name v)[name]?) =
      r.names.toList.filterMap fun name => r.vars[name]? := by
    refine List.filterMap_congr fun name hname => ?_
    have hne : v.name ≠ name := fun heq => hfresh (heq ▸ Array.mem_toList_iff.1 hname)
    rw [Std.HashMap.getElem?_insert, if_neg (by simpa using hne)]
  simp [view, ScopeRecord.bind, hothers]

end ScopeRecord

/-! ## Numbers and names in order -/

namespace Arena

/-- The numbers and the names of an arena are in order. -/
structure Valid (a : Arena) : Prop where
  /-- A scope stands at the place of its number. -/
  ids : ∀ (i : Nat) (r : ScopeRecord), a.scopes[i]? = some r → r.id = i
  outermost : a.active[0]? = some 0
  ascending : a.active.toList.Pairwise (· < ·)
  /-- The scope at a place of the stack has as many scopes around it. -/
  leveled : ∀ p id : Nat, a.active[p]? = some id → (a.record id).level = p
  /-- Every number is in exactly one of the two lists. -/
  partition : (a.active.toList ++ a.retired.toList).Perm (List.range a.scopes.size)
  keyed : ∀ r ∈ a.scopes, r.Keyed

variable {a : Arena}

theorem record_of_getElem? {id : Nat} {r : ScopeRecord} (h : a.scopes[id]? = some r) : a.record id = r := by
  rw [record, h]
  rfl

theorem getElem?_of_lt {id : Nat} (h : id < a.scopes.size) : a.scopes[id]? = some (a.record id) := by
  rw [record, Array.getElem?_eq_getElem h]
  rfl

namespace Valid

theorem active_ne_nil (h : a.Valid) : a.active.toList ≠ [] := by
  intro hnil
  have houter := h.outermost
  rw [← Array.getElem?_toList, hnil] at houter
  cases houter

/-- The innermost scope is the last of the open ones. -/
theorem active_eq (h : a.Valid) : a.active.toList = a.active.pop.toList ++ [a.currentId] := by
  have hne := h.active_ne_nil
  rw [currentId, Array.toList_pop, ← Array.getLast?_toList, List.getLast?_eq_some_getLast hne, Option.getD_some,
    List.dropLast_append_getLast hne]

theorem lt_of_mem (h : a.Valid) {id : Nat} (hid : id ∈ a.active.toList ++ a.retired.toList) : id < a.scopes.size :=
  List.mem_range.1 (h.partition.subset hid)

theorem lt_of_mem_active (h : a.Valid) {id : Nat} (hid : id ∈ a.active.toList) : id < a.scopes.size :=
  h.lt_of_mem (List.mem_append_left _ hid)

theorem lt_of_mem_retired (h : a.Valid) {id : Nat} (hid : id ∈ a.retired.toList) : id < a.scopes.size :=
  h.lt_of_mem (List.mem_append_right _ hid)

theorem currentId_mem (h : a.Valid) : a.currentId ∈ a.active.toList := by
  rw [h.active_eq]
  exact List.mem_append_right _ (List.mem_singleton_self _)

theorem currentId_lt (h : a.Valid) : a.currentId < a.scopes.size := h.lt_of_mem_active h.currentId_mem

theorem keyed_record (h : a.Valid) {id : Nat} (hid : id < a.scopes.size) : (a.record id).Keyed :=
  h.keyed _ (Array.mem_of_getElem? (getElem?_of_lt hid))

theorem id_record (h : a.Valid) {id : Nat} (hid : id < a.scopes.size) : (a.record id).id = id :=
  h.ids id _ (getElem?_of_lt hid)

/-- Numbers do not repeat. -/
theorem nodup (h : a.Valid) : (a.active.toList ++ a.retired.toList).Nodup := h.partition.nodup_iff.2 List.nodup_range

/-- There are as many scopes as numbers. -/
theorem size_eq (h : a.Valid) : a.scopes.size = a.active.size + a.retired.size := by
  have hlength := h.partition.length_eq
  simpa using hlength.symm

end Valid

/-! ### Steps -/

@[simp] theorem scopes_enter (a : Arena) :
    a.enter.2.scopes = a.scopes.push { id := a.scopes.size, level := a.active.size } := rfl

@[simp] theorem active_enter (a : Arena) : a.enter.2.active = a.active.push a.scopes.size := rfl

@[simp] theorem retired_enter (a : Arena) : a.enter.2.retired = a.retired := rfl

theorem record_enter_of_lt {id : Nat} (h : id < a.scopes.size) : a.enter.2.record id = a.record id := by
  refine record_of_getElem? ?_
  rw [scopes_enter, Array.getElem?_push, if_neg (by omega)]
  exact getElem?_of_lt h

theorem record_enter_self (a : Arena) :
    a.enter.2.record a.scopes.size = { id := a.scopes.size, level := a.active.size } := by
  refine record_of_getElem? ?_
  rw [scopes_enter, Array.getElem?_push, if_pos rfl]

theorem Valid.enter (h : a.Valid) : a.enter.2.Valid where
  ids i r hr := by
    rw [scopes_enter, Array.getElem?_push] at hr
    split at hr
    · next heq =>
      rw [← Option.some.inj hr, heq]
    · exact h.ids i r hr
  outermost := by
    rw [active_enter, Array.getElem?_push, if_neg, h.outermost]
    have hne := h.active_ne_nil
    rw [← Array.length_toList, eq_comm, List.length_eq_zero_iff]
    exact hne
  ascending := by
    rw [active_enter, Array.toList_push, List.pairwise_append]
    refine ⟨h.ascending, List.pairwise_singleton .., ?_⟩
    intro i hi j hj
    rw [List.mem_singleton.1 hj]
    exact h.lt_of_mem_active hi
  leveled p id hp := by
    rw [active_enter, Array.getElem?_push] at hp
    split at hp
    · next heq =>
      rw [← Option.some.inj hp, record_enter_self, heq]
    · have hid : id ∈ a.active.toList := Array.mem_toList_iff.2 (Array.mem_of_getElem? hp)
      rw [record_enter_of_lt (h.lt_of_mem_active hid)]
      exact h.leveled p id hp
  partition := by
    rw [active_enter, retired_enter, scopes_enter, Array.toList_push, Array.size_push, List.range_succ, List.append_assoc]
    -- The new number stands behind the open ones on one side, and behind all numbers on the other.
    refine List.perm_middle.trans ((h.partition.cons _).trans ?_)
    exact (List.perm_append_singleton _ _).symm
  keyed r hr := by
    rw [scopes_enter] at hr
    rcases Array.mem_push.1 hr with hr | rfl
    · exact h.keyed r hr
    · exact ScopeRecord.keyed_empty _ _

theorem leave_of_le (h : a.active.size ≤ 1) : a.leave = a := if_pos h

theorem leave_of_lt (h : 1 < a.active.size) :
    a.leave = { a with retired := a.retired.push a.currentId, active := a.active.pop } := if_neg (Nat.not_le.2 h)

theorem Valid.leave (h : a.Valid) : a.leave.Valid := by
  rcases Nat.lt_or_ge 1 a.active.size with hsize | hsize
  · rw [leave_of_lt hsize]
    have hsplit := h.active_eq
    exact {
      ids := h.ids
      outermost := by
        rw [Array.getElem?_pop, if_pos (by omega)]
        exact h.outermost
      ascending := by
        have hascending := h.ascending
        rw [hsplit, List.pairwise_append] at hascending
        exact hascending.1
      leveled := fun p id hp => by
        rw [Array.getElem?_pop] at hp
        split at hp
        · exact h.leveled p id hp
        · cases hp
      partition := by
        have hpartition := h.partition
        rw [hsplit, List.append_assoc] at hpartition
        refine List.Perm.trans ?_ hpartition
        rw [Array.toList_push]
        exact (List.perm_append_comm).append_left _
      keyed := h.keyed }
  · rwa [leave_of_le hsize]

theorem Valid.alloc (h : a.Valid) : a.alloc.2.Valid := ⟨h.ids, h.outermost, h.ascending, h.leveled, h.partition, h.keyed⟩

/-- An arena in which the innermost scope has a further variable. -/
def bind (a : Arena) (v : Variable) : Arena := { a with scopes := a.scopes.modify a.currentId (·.bind v) }

theorem getElem?_bind (a : Arena) (v : Variable) (id : Nat) :
    (a.bind v).scopes[id]? = if a.currentId = id then (a.scopes[id]?).map (·.bind v) else a.scopes[id]? :=
  Array.getElem?_modify

theorem record_bind_of_ne {v : Variable} {id : Nat} (h : id ≠ a.currentId) : (a.bind v).record id = a.record id := by
  rw [record, getElem?_bind, if_neg (Ne.symm h), record]

theorem Valid.current_bind (h : a.Valid) (v : Variable) : (a.bind v).current = a.current.bind v := by
  refine record_of_getElem? ?_
  show (a.bind v).scopes[a.currentId]? = _
  rw [getElem?_bind, if_pos rfl, getElem?_of_lt h.currentId_lt]
  rfl

theorem Valid.bind (h : a.Valid) {v : Variable} (hfolded : v.name.fold = v.name) (hnew : a.current.vars[v.name]? = none) :
    (a.bind v).Valid where
  ids i r hr := by
    rw [getElem?_bind] at hr
    split at hr
    · obtain ⟨r', hr', rfl⟩ := Option.map_eq_some_iff.1 hr
      exact h.ids i r' hr'
    · exact h.ids i r hr
  outermost := h.outermost
  ascending := h.ascending
  leveled p id hp := by
    by_cases hid : id = a.currentId
    · subst hid
      exact (congrArg ScopeRecord.level (h.current_bind v)).trans (h.leveled p _ hp)
    · rw [record_bind_of_ne hid]
      exact h.leveled p id hp
  partition := by
    have hsize : (a.bind v).scopes.size = a.scopes.size := Array.size_modify
    rw [hsize]
    exact h.partition
  keyed r hr := by
    obtain ⟨i, hi⟩ := Array.getElem?_of_mem hr
    rw [getElem?_bind] at hi
    split at hi
    · next hcurrent =>
      obtain ⟨r', hr', rfl⟩ := Option.map_eq_some_iff.1 hi
      rw [← hcurrent] at hr'
      have hrecord := record_of_getElem? hr'
      rw [← hrecord]
      exact (h.keyed_record h.currentId_lt).bind hfolded hnew
    · exact h.keyed r (Array.mem_of_getElem? hi)

/-- A declaration is refused where the innermost scope has the name, and nothing changes; otherwise it binds the name in
the next slot. -/
theorem declare_cases (a : Arena) (tok : Token) (ty : Ty) :
    (∃ previous, a.current.vars[tok.value.fold]? = some previous ∧
      a.declare tok ty = (.error (.redeclared tok.value.fold a.current.id previous), a)) ∨
    (a.current.vars[tok.value.fold]? = none ∧
      let v : Variable := ⟨{ tok with value := tok.value.fold }, ty, a.frame.alloc.1⟩
      a.declare tok ty = (.ok v, a.alloc.2.bind v)) := by
  cases hfind : a.current.vars[tok.value.fold]? with
  | some previous => exact .inl ⟨previous, rfl, by simp only [declare, hfind]⟩
  | none => exact .inr ⟨rfl, by simp only [declare, hfind]; rfl⟩

/-- What a call can do to an arena. -/
theorem perform_cases (a : Arena) (c : Call) :
    (c = .enter ∧ (a.perform c).2 = a.enter.2) ∨ (c = .leave ∧ (a.perform c).2 = a.leave) ∨
      (c ≠ .enter ∧ c ≠ .leave ∧ ((a.perform c).2 = a ∨ (a.perform c).2 = a.alloc.2 ∨
        ∃ v : Variable, v.name.fold = v.name ∧ a.current.vars[v.name]? = none ∧ (a.perform c).2 = a.alloc.2.bind v)) := by
  cases c with
  | enter => exact .inl ⟨rfl, rfl⟩
  | leave => exact .inr (.inl ⟨rfl, rfl⟩)
  | temporary => exact .inr (.inr ⟨nofun, nofun, .inr (.inl rfl)⟩)
  | shadows name => exact .inr (.inr ⟨nofun, nofun, .inl rfl⟩)
  | scope id => exact .inr (.inr ⟨nofun, nofun, .inl rfl⟩)
  | resolve name =>
    refine .inr (.inr ⟨nofun, nofun, .inl ?_⟩)
    simp only [perform]
    split <;> rfl
  | declare tok ty =>
    refine .inr (.inr ⟨nofun, nofun, ?_⟩)
    rcases a.declare_cases tok ty with ⟨previous, -, heq⟩ | ⟨hnew, heq⟩
    · exact .inl (by simp only [perform, heq])
    · exact .inr (.inr ⟨⟨{ tok with value := tok.value.fold }, ty, a.frame.alloc.1⟩, Text.fold_fold _, hnew,
        by simp only [perform, heq]⟩)

theorem Valid.perform (h : a.Valid) (c : Call) : (a.perform c).2.Valid := by
  rcases a.perform_cases c with ⟨-, heq⟩ | ⟨-, heq⟩ | ⟨-, -, heq | heq | ⟨v, hfolded, hnew, heq⟩⟩
  · rw [heq]
    exact h.enter
  · rw [heq]
    exact h.leave
  · rwa [heq]
  · rw [heq]
    exact h.alloc
  · rw [heq]
    exact h.alloc.bind hfolded hnew

theorem Valid.run (h : a.Valid) (calls : List Call) : (a.run calls).Valid := by
  induction calls generalizing a with
  | nil => exact h
  | cons c rest ih => exact ih (h.perform c)

theorem valid_new (frame : Frame) : (new frame).Valid where
  ids i r hr := by
    rw [new, scopes_enter, Array.getElem?_push] at hr
    split at hr
    · next heq => rw [← Option.some.inj hr, heq]
    · simp at hr
  outermost := rfl
  ascending := List.pairwise_singleton ..
  leveled p id hp := by
    rw [new, active_enter, Array.getElem?_push] at hp
    split at hp
    · next heq =>
      rw [← Option.some.inj hp, heq]
      rfl
    · simp at hp
  partition := .refl _
  keyed r hr := by
    rw [new, scopes_enter] at hr
    rcases Array.mem_push.1 hr with hr | rfl
    · simp at hr
    · exact ScopeRecord.keyed_empty _ _

/-! ## The stack that an arena stands for -/

/-- What the scope with a number holds. -/
def view (a : Arena) (id : Nat) : Scope := (a.record id).view

/-- The scopes of an arena, in place of their numbers. -/
def stack (a : Arena) : SymbolTable where
  innermost := a.view a.currentId
  enclosing := (a.active.pop.toList.map a.view).reverse
  retired := a.retired.toList.map a.view

/-- The stack of an arena with its frame. -/
def session (a : Arena) : Session := ⟨a.stack, a.frame⟩

theorem Valid.openScopes_stack (h : a.Valid) : a.stack.openScopes = (a.active.toList.map a.view).reverse := by
  rw [h.active_eq, List.map_append, List.reverse_append]
  rfl

theorem Valid.active_stack (h : a.Valid) : a.stack.active = a.active.toList.map a.view := by
  rw [SymbolTable.active, h.openScopes_stack, List.reverse_reverse]

theorem Valid.depth_stack (h : a.Valid) : a.stack.depth = a.active.size := by
  simp [SymbolTable.depth, h.openScopes_stack]

theorem Valid.scopes_stack (h : a.Valid) :
    a.stack.active ++ a.stack.retired = (a.active.toList ++ a.retired.toList).map a.view := by
  rw [h.active_stack, List.map_append]
  rfl

theorem Valid.stacked (h : a.Valid) : a.stack.Stacked := by
  have hids : ∀ ids : List Nat, (∀ id ∈ ids, id < a.scopes.size) → (ids.map a.view).map Scope.id = ids := by
    intro ids hlt
    rw [List.map_map]
    exact (List.map_congr_left fun id hid => h.id_record (hlt id hid)).trans (List.map_id ids)
  have hactive : (a.stack.active).map Scope.id = a.active.toList := by
    rw [h.active_stack]
    exact hids _ fun id => h.lt_of_mem_active
  constructor
  · rw [h.scopes_stack, hids _ fun id => h.lt_of_mem, List.length_map, h.partition.length_eq, List.length_range]
    exact h.partition
  · rw [hactive, List.head?_eq_getElem?, Array.getElem?_toList]
    exact h.outermost
  · rw [hactive]
    exact h.ascending
  · rw [h.active_stack, h.depth_stack, List.map_map]
    refine List.ext_getElem? fun p => ?_
    rw [List.getElem?_map, Array.getElem?_toList]
    cases hp : a.active[p]? with
    | none =>
      have hsize : a.active.size ≤ p := Array.getElem?_eq_none_iff.1 hp
      simp [hsize]
    | some id =>
      have hsize : p < a.active.size := (Array.getElem?_eq_some_iff.1 hp).1
      simp [hsize, view, h.leveled p id hp]
  · intro s hs
    rw [h.scopes_stack] at hs
    obtain ⟨id, hid, rfl⟩ := List.mem_map.1 hs
    exact (h.keyed_record (h.lt_of_mem hid)).wellNamed

/-! ### Steps -/

theorem currentId_enter (a : Arena) : a.enter.2.currentId = a.scopes.size := by
  simp [currentId]

theorem Valid.stack_enter (h : a.Valid) : a.enter.2.stack = a.stack.enter := by
  have hviews : ∀ ids : List Nat, ids ⊆ a.active.toList ++ a.retired.toList → ids.map a.enter.2.view = ids.map a.view := by
    intro ids hids
    refine List.map_congr_left fun id hid => ?_
    rw [view, record_enter_of_lt (h.lt_of_mem (hids hid)), view]
  have hinner : a.enter.2.view a.enter.2.currentId = ⟨a.scopes.size, a.active.size, []⟩ := by
    rw [currentId_enter, view, record_enter_self]
    rfl
  have hretired : a.stack.retired.length = a.retired.size := by simp [stack]
  rw [SymbolTable.enter, h.openScopes_stack, h.depth_stack, hretired, ← h.size_eq]
  simp only [stack, hinner, active_enter, retired_enter, Array.pop_push, hviews _ (List.subset_append_left _ _),
    hviews _ (List.subset_append_right _ _)]

theorem Valid.id_enter (h : a.Valid) : a.stack.enter.innermost.id = a.scopes.size := by
  rw [← h.stack_enter, stack, currentId_enter, view, record_enter_self]
  rfl

theorem Valid.stack_leave (h : a.Valid) : a.leave.stack = a.stack.leave := by
  have hlength := h.active_ne_nil
  rcases Nat.lt_or_ge 1 a.active.size with hsize | hsize
  · have hinner := h.leave.active_eq
    rw [leave_of_lt hsize] at hinner ⊢
    have henclosing : a.stack.enclosing = _ := congrArg (fun ids => (ids.map a.view).reverse) hinner
    rw [List.map_append, List.reverse_append] at henclosing
    rw [SymbolTable.leave_of_enclosing henclosing]
    simp only [stack, Array.toList_push, List.map_append]
    rfl
  · have hpop : a.active.pop.toList = [] := by
      rw [← List.length_eq_zero_iff]
      simp
      omega
    rw [leave_of_le hsize, SymbolTable.leave_of_outermost]
    rw [stack, hpop]
    rfl

theorem Valid.stack_bind (h : a.Valid) {v : Variable} (hnew : a.current.vars[v.name]? = none) :
    (a.bind v).stack = a.stack.bind v := by
  have hdisjoint := h.nodup
  rw [h.active_eq, List.append_assoc, List.nodup_append, List.nodup_append] at hdisjoint
  -- No number occurs twice, so what holds the other scopes does not see the variable.
  have hviews : ∀ ids : List Nat, a.currentId ∉ ids → ids.map (a.bind v).view = ids.map a.view := by
    intro ids hids
    refine List.map_congr_left fun id hid => ?_
    rw [view, record_bind_of_ne (fun heq => hids (heq ▸ hid)), view]
  have hinner : (a.bind v).view a.currentId = _ :=
    (congrArg ScopeRecord.view (h.current_bind v)).trans ((h.keyed_record h.currentId_lt).view_bind hnew)
  have hpop : a.currentId ∉ a.active.pop.toList := fun hmem =>
    hdisjoint.2.2 _ hmem _ (List.mem_append_left _ (List.mem_singleton_self _)) rfl
  have hretired : a.currentId ∉ a.retired.toList := fun hmem =>
    hdisjoint.2.1.2.2 _ (List.mem_singleton_self _) _ hmem rfl
  show SymbolTable.mk ((a.bind v).view a.currentId) ((a.active.pop.toList.map (a.bind v).view).reverse)
    (a.retired.toList.map (a.bind v).view) = _
  rw [hinner, hviews _ hpop, hviews _ hretired]
  rfl

/-! ### Answers -/

theorem getD_active {p id : Nat} (h : a.active[p]? = some id) : a.active.getD p 0 = id := by
  simp [Array.getD_eq_getD_getElem?, h]

theorem getElem?_active {p : Nat} (h : p < a.active.size) : a.active[p]? = some (a.active.getD p 0) := by
  simp [Array.getD_eq_getD_getElem?, h]

theorem Valid.find?_current (h : a.Valid) (name : Text) : a.stack.innermost.find? name = a.current.vars[name.fold]? :=
  (h.keyed_record h.currentId_lt).find?_view name

/-- The search by numbers is the search through the scopes. -/
theorem Valid.lookupBelow_eq (h : a.Valid) (name : Text) {n : Nat} (hn : n ≤ a.active.size) :
    a.lookupBelow name.fold n = SymbolTable.lookup ((a.active.toList.take n).map a.view).reverse name := by
  -- The induction is on how many of the open scopes are searched, and the last of them is searched first.
  induction n with
  | zero => rfl
  | succ n ih =>
    have hid := getElem?_active hn
    generalize a.active.getD n 0 = id at hid
    have hmem : id ∈ a.active.toList := Array.mem_toList_iff.2 (Array.mem_of_getElem? hid)
    have hfind : (a.view id).find? name = (a.record id).vars[name.fold]? :=
      (h.keyed_record (h.lt_of_mem_active hmem)).find?_view name
    have htake : a.active.toList.take (n + 1) = a.active.toList.take n ++ [id] := by
      rw [List.take_add_one, Array.getElem?_toList, hid]
      rfl
    rw [lookupBelow, getD_active hid, htake, List.map_append, List.reverse_append, SymbolTable.lookup]
    show _ = (a.view id :: ((a.active.toList.take n).map a.view).reverse).findSome? _
    rw [List.findSome?_cons, hfind]
    cases (a.record id).vars[name.fold]? with
    | some v => rfl
    | none => exact ih (by omega)

theorem Valid.resolve_eq (h : a.Valid) (name : Text) : a.resolve name = a.stack.resolve name := by
  have hall : a.active.toList.take a.active.size = a.active.toList :=
    List.take_of_length_le (Nat.le_of_eq Array.length_toList)
  rewrite [resolve, h.lookupBelow_eq name (Nat.le_refl _), SymbolTable.resolve, h.openScopes_stack, hall]
  rfl

theorem Valid.shadowed?_eq (h : a.Valid) (name : Text) : a.shadowed? name = a.stack.shadowed? name := by
  rw [shadowed?, h.lookupBelow_eq name (Nat.sub_le _ _), SymbolTable.shadowed?, stack, Array.toList_pop,
    List.dropLast_eq_take, Array.length_toList]

theorem Valid.scope?_eq (h : a.Valid) (id : Nat) : a.scopes[id]?.map ScopeRecord.view = a.stack.scope? id := by
  refine Option.ext fun s => ?_
  rw [h.stacked.scope?_eq_some_iff, h.scopes_stack, Option.map_eq_some_iff]
  constructor
  · rintro ⟨r, hr, rfl⟩
    have hid : id < a.scopes.size := (Array.getElem?_eq_some_iff.1 hr).1
    refine ⟨List.mem_map.2 ⟨id, h.partition.mem_iff.2 (List.mem_range.2 hid), ?_⟩, h.ids id r hr⟩
    rw [view, record_of_getElem? hr]
  · rintro ⟨hs, rfl⟩
    obtain ⟨id, hid, rfl⟩ := List.mem_map.1 hs
    have hlt := h.lt_of_mem hid
    have hown : (a.view id).id = id := h.id_record hlt
    exact ⟨a.record id, by rw [hown]; exact getElem?_of_lt hlt, rfl⟩

/-- A call does to the stack of an arena what it does to the arena, and has the same answer. -/
theorem Valid.perform_refines (h : a.Valid) (c : Call) :
    (a.perform c).1 = (a.session.perform c).1 ∧ (a.perform c).2.session = (a.session.perform c).2 := by
  cases c with
  | enter => exact ⟨congrArg Answer.entered h.id_enter.symm, congrArg (Session.mk · a.frame) h.stack_enter⟩
  | leave =>
    have hframe : a.leave.frame = a.frame := by
      rw [Arena.leave]
      split <;> rfl
    exact ⟨rfl, congrArg₂ Session.mk h.stack_leave hframe⟩
  | declare tok ty =>
    have hfind := h.find?_current tok.value
    have hid : a.stack.innermost.id = a.current.id := rfl
    rcases a.declare_cases tok ty with ⟨previous, hprevious, heq⟩ | ⟨hnew, heq⟩
    · rw [hprevious] at hfind
      simp only [Arena.perform, heq, Session.perform, session, SymbolTable.declare, hfind, hid, and_self]
    · rw [hnew] at hfind
      have hstack := h.alloc.stack_bind (v := ⟨{ tok with value := tok.value.fold }, ty, a.frame.alloc.1⟩) hnew
      simp only [Arena.perform, heq, Session.perform, session, SymbolTable.declare, hfind]
      exact ⟨trivial, congrArg (Session.mk · a.frame.alloc.2) hstack⟩
  | resolve name =>
    simp only [Arena.perform, Session.perform, session, h.resolve_eq]
    cases a.stack.resolve name <;> exact ⟨rfl, rfl⟩
  | shadows name => exact ⟨congrArg Answer.shadowed (h.shadowed?_eq name), rfl⟩
  | scope id =>
    cases id with
    | ofNat id => exact ⟨congrArg Answer.scope (h.scope?_eq id), rfl⟩
    | negSucc id => exact ⟨rfl, rfl⟩
  | temporary => exact ⟨rfl, rfl⟩

theorem Valid.run_refines (h : a.Valid) (calls : List Call) :
    a.answers calls = a.session.answers calls ∧ (a.run calls).session = a.session.run calls := by
  induction calls generalizing a with
  | nil => exact ⟨rfl, rfl⟩
  | cons c rest ih =>
    obtain ⟨hanswer, hsession⟩ := h.perform_refines c
    obtain ⟨hanswers, hrun⟩ := ih (h.perform c)
    rw [hsession] at hanswers hrun
    exact ⟨congrArg₂ List.cons hanswer hanswers, hrun⟩

/-- An arena is printed as its stack is. -/
theorem Valid.dump_eq (h : a.Valid) : a.dump = a.stack.dump := by
  have houtermost : a.stack.outermost = a.view (a.active.getD 0 0) := by
    have hfirst : a.stack.active.head? = some a.stack.outermost := by
      simp [SymbolTable.active, SymbolTable.openScopes, SymbolTable.outermost]
    rw [h.active_stack, List.head?_map, List.head?_eq_getElem?, Array.getElem?_toList, h.outermost] at hfirst
    rw [Array.getD_eq_getD_getElem?, h.outermost]
    exact (Option.some.inj hfirst).symm
  -- A block is printed unless it is empty, which the arena sees by its names and the stack by its variables.
  have hblock : ∀ id ∈ a.retired.toList, (a.record id).names.isEmpty = (a.view id).vars.isEmpty := by
    intro id hid
    have hnames := (h.keyed_record (h.lt_of_mem_retired hid)).map_name_view
    rw [← Array.isEmpty_toList, ← hnames, List.isEmpty_map]
    rfl
  rw [dump, SymbolTable.dump, houtermost]
  refine congrArg (fun blocks => (a.view (a.active.getD 0 0)).dump 0 ++ Text.concat blocks) ?_
  show (a.retired.toList.map a.record).mapIdx _ = (a.retired.toList.map a.view).mapIdx _
  refine List.ext_getElem (by simp) fun i hi _ => ?_
  have hid : i < a.retired.toList.length := by simpa using hi
  rw [List.getElem_mapIdx, List.getElem_mapIdx, List.getElem_map, List.getElem_map, hblock _ (List.getElem_mem hid)]
  rfl

theorem session_new (wordSize : Int64) : (new { wordSize }).session = Session.fresh wordSize := rfl

/-! ## Names in force -/

theorem lookupBelow_eq_some_iff {key : Text} {v : Variable} {n : Nat} :
    a.lookupBelow key n = some v ↔ ∃ p < n, (a.record (a.active.getD p 0)).vars[key]? = some v ∧
      ∀ q, p < q → q < n → (a.record (a.active.getD q 0)).vars[key]? = none := by
  induction n with
  | zero => simp [lookupBelow]
  | succ n ih =>
    rw [lookupBelow]
    cases htop : (a.record (a.active.getD n 0)).vars[key]? with
    | some w =>
      constructor
      · intro heq
        exact ⟨n, by omega, by rw [htop, ← heq], fun q hq hn => by omega⟩
      · rintro ⟨p, hp, hv, hnone⟩
        by_cases hpn : p = n
        · rw [← hv, hpn, htop]
        · rw [hnone n (by omega) (by omega)] at htop
          cases htop
    | none =>
      rw [ih]
      constructor
      · rintro ⟨p, hp, hv, hnone⟩
        refine ⟨p, by omega, hv, fun q hpq hqn => ?_⟩
        by_cases hq : q = n
        · rw [hq, htop]
        · exact hnone q hpq (by omega)
      · rintro ⟨p, hp, hv, hnone⟩
        have hpn : p ≠ n := by
          rintro rfl
          rw [hv] at htop
          cases htop
        exact ⟨p, by omega, hv, fun q hpq hqn => hnone q hpq (by omega)⟩

theorem lookupBelow_eq_none_iff {key : Text} {n : Nat} :
    a.lookupBelow key n = none ↔ ∀ p < n, (a.record (a.active.getD p 0)).vars[key]? = none := by
  induction n with
  | zero => simp [lookupBelow]
  | succ n ih =>
    rw [lookupBelow, Nat.forall_lt_succ_right, ← ih]
    cases (a.record (a.active.getD n 0)).vars[key]? <;> simp

/-- A name is resolved in the innermost open scope that has it. -/
theorem resolve_eq_ok_iff {name : Text} {v : Variable} :
    a.resolve name = .ok v ↔ ∃ p id : Nat, a.active[p]? = some id ∧ (a.record id).vars[name.fold]? = some v ∧
      ∀ q other : Nat, p < q → a.active[q]? = some other → name.fold ∉ (a.record other).vars := by
  have hlookup : a.resolve name = .ok v ↔ a.lookupBelow name.fold a.active.size = some v := by
    unfold resolve
    split <;> simp_all
  rw [hlookup, lookupBelow_eq_some_iff]
  constructor
  · rintro ⟨p, hp, hv, hnone⟩
    refine ⟨p, _, getElem?_active hp, hv, fun q other hpq hother => ?_⟩
    have hq := hnone q hpq (Array.getElem?_eq_some_iff.1 hother).1
    rwa [getD_active hother, getElem?_eq_none_iff] at hq
  · rintro ⟨p, id, hid, hv, hnone⟩
    refine ⟨p, (Array.getElem?_eq_some_iff.1 hid).1, by rwa [getD_active hid], fun q hpq hq => ?_⟩
    exact (getElem?_eq_none_iff _ _).2 (hnone q _ hpq (getElem?_active hq))

/-- A name is undeclared where no open scope has it. -/
theorem resolve_eq_error_iff {name : Text} {e : NameError} :
    a.resolve name = .error e ↔
      e = .undeclared name.fold ∧ ∀ id ∈ a.active, name.fold ∉ (a.record id).vars := by
  have hnone : a.lookupBelow name.fold a.active.size = none ↔ ∀ id ∈ a.active, name.fold ∉ (a.record id).vars := by
    rw [lookupBelow_eq_none_iff]
    constructor
    · intro hall id hid
      obtain ⟨p, hp⟩ := Array.getElem?_of_mem hid
      have hnone := hall p (Array.getElem?_eq_some_iff.1 hp).1
      rwa [getD_active hp, getElem?_eq_none_iff] at hnone
    · intro hall p hp
      exact (getElem?_eq_none_iff _ _).2 (hall _ (Array.mem_of_getElem? (getElem?_active hp)))
  rw [← hnone, resolve]
  cases a.lookupBelow name.fold a.active.size with
  | none => simp [eq_comm]
  | some v => simp

/-- A declaration hides what would be in force without the innermost scope. -/
theorem Valid.shadowed?_eq_leave (h : a.Valid) (name : Text) :
    a.shadowed? name = if 1 < a.depth then (a.leave.resolve name).toOption else none := by
  rw [h.shadowed?_eq, SymbolTable.shadowed?_eq, h.depth_stack, h.leave.resolve_eq, h.stack_leave]
  rfl

/-- A declaration is refused where the innermost scope has the name. -/
theorem declare_eq_error_iff (a : Arena) (tok : Token) (ty : Ty) {e : NameError} :
    (a.declare tok ty).1 = .error e ↔ ∃ previous, a.current.vars[tok.value.fold]? = some previous ∧
      e = .redeclared tok.value.fold a.current.id previous := by
  rcases a.declare_cases tok ty with ⟨previous, hprevious, heq⟩ | ⟨hnew, heq⟩
  · simp [heq, hprevious, eq_comm]
  · simp [heq, hnew]

/-- A refused declaration changes nothing. -/
theorem declare_of_error {tok : Token} {ty : Ty} {e : NameError} (h : (a.declare tok ty).1 = .error e) :
    (a.declare tok ty).2 = a := by
  rcases a.declare_cases tok ty with ⟨previous, -, heq⟩ | ⟨-, heq⟩
  · rw [heq]
  · rw [heq] at h
    cases h

/-! ## Scopes that were left -/

/-- Each opening adds a scope, and nothing else does. -/
theorem size_perform (a : Arena) (c : Call) : (a.perform c).2.scopes.size = a.scopes.size + [c].count .enter := by
  have hother {c : Call} (hc : c ≠ .enter) : [c].count .enter = 0 := by
    rw [List.count_singleton, if_neg (by simpa using hc)]
  rcases a.perform_cases c with ⟨rfl, heq⟩ | ⟨rfl, heq⟩ | ⟨hc, -, heq | heq | ⟨v, -, -, heq⟩⟩
  · rw [heq, scopes_enter, Array.size_push]
    rfl
  · rw [heq, leave]
    split <;> rfl
  · rw [heq, hother hc]
    rfl
  · rw [heq, hother hc]
    rfl
  · rw [heq, hother hc]
    exact Array.size_modify

theorem size_run (a : Arena) (calls : List Call) : (a.run calls).scopes.size = a.scopes.size + calls.count .enter := by
  induction calls generalizing a with
  | nil => rfl
  | cons c rest ih =>
    rw [run, ih, size_perform, Nat.add_assoc, ← List.count_append]
    rfl

/-- The scopes that were left stay as they are, and in their order. -/
structure Keeps (a b : Arena) : Prop where
  retired : a.retired.toList <+: b.retired.toList
  records : ∀ id ∈ a.retired.toList, b.scopes[id]? = a.scopes[id]?

theorem Keeps.refl (a : Arena) : Keeps a a := ⟨List.prefix_rfl, fun _ _ => rfl⟩

theorem Keeps.trans {b c : Arena} (h : Keeps a b) (h' : Keeps b c) : Keeps a c where
  retired := h.retired.trans h'.retired
  records id hid := (h'.records id (h.retired.subset hid)).trans (h.records id hid)

theorem Valid.keeps_perform (h : a.Valid) (c : Call) : Keeps a (a.perform c).2 := by
  rcases a.perform_cases c with ⟨-, heq⟩ | ⟨-, heq⟩ | ⟨-, -, heq | heq | ⟨v, -, -, heq⟩⟩
  · refine heq ▸ ⟨List.prefix_rfl, fun id hid => ?_⟩
    have hlt := h.lt_of_mem_retired hid
    rw [scopes_enter, Array.getElem?_push, if_neg (by omega)]
  · rw [heq, Arena.leave]
    split
    · exact .refl a
    · refine ⟨?_, fun _ _ => rfl⟩
      rw [Array.toList_push]
      exact List.prefix_append _ _
  · rw [heq]
    exact .refl a
  · rw [heq]
    exact ⟨List.prefix_rfl, fun _ _ => rfl⟩
  · refine heq ▸ ⟨List.prefix_rfl, fun id hid => ?_⟩
    have hne : a.currentId ≠ id := fun hcurrent =>
      (List.nodup_append.1 h.nodup).2.2 _ h.currentId_mem _ hid hcurrent
    exact (getElem?_bind _ v id).trans (if_neg hne)

theorem Valid.keeps_run (h : a.Valid) (calls : List Call) : Keeps a (a.run calls) := by
  induction calls generalizing a with
  | nil => exact .refl a
  | cons c rest ih => exact (h.keeps_perform c).trans (ih (h.perform c))

theorem run_append (a : Arena) (first second : List Call) : a.run (first ++ second) = (a.run first).run second := by
  induction first generalizing a with
  | nil => rfl
  | cons c rest ih => exact ih _

/-- Balanced calls inside a scope of their own leave that scope behind, and the names outside mean what they meant. -/
theorem Valid.closed_run (h : a.Valid) {inner : List Call} (hinner : Balanced inner) :
    let inside := a.run (.enter :: inner)
    let outside := a.run (.enter :: inner ++ [.leave])
    inside.currentId = a.scopes.size ∧ outside.retired = inside.retired.push a.scopes.size ∧
      outside.scopes = inside.scopes ∧ ∀ name, outside.resolve name = a.resolve name := by
  intro inside outside
  -- That nothing around the scope has changed is known of the stack; the numbers are read off the arena.
  have hinside : inside.Valid := h.run _
  have hsession : inside.session = a.session.run (.enter :: inner) := (h.run_refines _).2
  have haround := Session.around_run hinner (a.session.perform .enter).2
  have htable : inside.stack = ((a.session.perform .enter).2.run inner).table := congrArg Session.table hsession
  rw [← htable] at haround
  have hcurrent : inside.currentId = a.scopes.size := by
    have hid : inside.stack.innermost.id = inside.currentId := hinside.id_record hinside.currentId_lt
    rw [← hid, haround.id]
    exact h.id_enter
  have hdepth : 1 < inside.active.size := by
    rw [← hinside.depth_stack, SymbolTable.depth, SymbolTable.openScopes, haround.enclosing]
    show 1 < (a.stack.enter.innermost :: a.stack.openScopes).length
    simp [SymbolTable.openScopes]
  have houtside : outside = inside.leave := by
    show a.run (.enter :: inner ++ [.leave]) = _
    rw [run_append]
    rfl
  have hopen : outside.stack.openScopes = a.stack.openScopes := by
    rw [houtside, hinside.stack_leave]
    exact haround.leave
  refine ⟨hcurrent, ?_, ?_, fun name => ?_⟩
  · rw [houtside, leave_of_lt hdepth, hcurrent]
  · rw [houtside, leave_of_lt hdepth]
  · rw [(h.run _ : outside.Valid).resolve_eq, h.resolve_eq, SymbolTable.resolve, hopen]
    rfl

/-- After any calls a name means what it means in the stack. -/
theorem resolve_run (wordSize : Int64) (calls : List Call) (name : Text) :
    ((new { wordSize }).run calls).resolve name = ((Session.fresh wordSize).run calls).table.resolve name := by
  have hnew := valid_new { wordSize }
  rw [(hnew.run calls).resolve_eq, ← session_new, ← (hnew.run_refines calls).2]
  rfl

end Arena

/-! ## The symbol table is a stack of scopes -/

/-- The arena refines a stack of scopes: the answers to any calls are those of a stack, and what the arena holds at the end
is what the stack holds. Scopes are numbered by their places in the order of their openings, every number is open or left,
the open ones ascend from zero and know their places, and in each scope the variables stand under exactly its folded names.
A name means what the innermost open scope with that name says, and hides what it would mean without the innermost scope. A
refused declaration changes nothing. What balanced calls do in a scope of their own changes the meaning of no name outside,
and the scope stays as they left it for ever. -/
theorem scopes_form_stack (wordSize : Int64) (calls : List Call) :
    let a := (Arena.new { wordSize }).run calls
    ((Arena.new { wordSize }).answers calls = (Session.fresh wordSize).answers calls ∧
      a.session = (Session.fresh wordSize).run calls) ∧
    a.Valid ∧ a.scopes.size = calls.count .enter + 1 ∧
    (∀ name v, a.resolve name = .ok v ↔ ∃ p id : Nat, a.active[p]? = some id ∧
      (a.record id).vars[name.fold]? = some v ∧
      ∀ q other : Nat, p < q → a.active[q]? = some other → name.fold ∉ (a.record other).vars) ∧
    (∀ name e, a.resolve name = .error e ↔
      e = .undeclared name.fold ∧ ∀ id ∈ a.active, name.fold ∉ (a.record id).vars) ∧
    (∀ name, a.shadowed? name = if 1 < a.depth then (a.leave.resolve name).toOption else none) ∧
    (∀ tok ty e, (a.declare tok ty).1 = .error e ↔ ∃ previous, a.current.vars[tok.value.fold]? = some previous ∧
      e = .redeclared tok.value.fold a.current.id previous) ∧
    (∀ tok ty e, (a.declare tok ty).1 = .error e → (a.declare tok ty).2 = a) ∧
    ∀ inner, Balanced inner →
      let inside := a.run (.enter :: inner)
      let outside := a.run (.enter :: inner ++ [.leave])
      (∀ name, outside.resolve name = a.resolve name) ∧
      inside.currentId = a.enter.1 ∧ outside.retired = inside.retired.push a.enter.1 ∧
      ∀ later, outside.retired.toList <+: (outside.run later).retired.toList ∧
        (outside.run later).scope? a.enter.1 = some inside.current := by
  intro a
  have hnew := Arena.valid_new { wordSize }
  have hvalid : a.Valid := hnew.run calls
  refine ⟨hnew.run_refines calls, hvalid, ?_, fun name v => Arena.resolve_eq_ok_iff,
    fun name e => Arena.resolve_eq_error_iff, hvalid.shadowed?_eq_leave, fun tok ty e => a.declare_eq_error_iff tok ty,
    fun tok ty e => Arena.declare_of_error, ?_⟩
  · rw [Arena.size_run, Nat.add_comm]
    rfl
  · intro inner hinner inside outside
    obtain ⟨hcurrent, hretired, hscopes, hresolve⟩ := hvalid.closed_run hinner
    refine ⟨hresolve, hcurrent, hretired, fun later => ?_⟩
    have hkeeps := (hvalid.run _ : outside.Valid).keeps_run later
    have hmem : a.scopes.size ∈ outside.retired.toList := by
      rw [hretired]
      simp
    refine ⟨hkeeps.retired, ?_⟩
    show (outside.run later).scopes[a.scopes.size]? = _
    rw [hkeeps.records _ hmem, hscopes, ← hcurrent]
    exact Arena.getElem?_of_lt (hvalid.run _ : inside.Valid).currentId_lt

/-- A name is bound again in a scope of its own, around a further scope. -/
def rebindingCalls : List Call :=
  [.declare (.plain .ident "X") .string, .enter, .declare (.plain .ident "y") .logical, .leave, .resolve "x"]

/-- The name means outside what it meant before, and the scope is still there. -/
theorem rebindingCalls_restored :
    let a := (Arena.new { wordSize := 4 }).run [.declare (.plain .ident "x") .integer]
    let inside := a.run (.enter :: rebindingCalls)
    let outside := a.run (.enter :: rebindingCalls ++ [.leave])
    Balanced rebindingCalls ∧ inside.resolve "x" ≠ a.resolve "x" ∧ outside.resolve "x" = a.resolve "x" ∧
      outside.scope? a.enter.1 = some inside.current := by
  have hinner : Balanced [.declare (.plain .ident "y") .logical] := .call nofun nofun .nil
  have hrest : Balanced [.resolve "x"] := .call nofun nofun .nil
  have hbalanced : Balanced rebindingCalls := .call nofun nofun (hinner.nested hrest)
  obtain ⟨-, -, -, -, -, -, -, -, hclosed⟩ := scopes_form_stack 4 [.declare (.plain .ident "x") .integer]
  obtain ⟨hresolve, -, -, hkept⟩ := hclosed _ hbalanced
  refine ⟨hbalanced, ?_, hresolve "x", (hkept []).2⟩
  rw [← Arena.run_append, Arena.resolve_run, Arena.resolve_run]
  decide +kernel

end AlgolMips
