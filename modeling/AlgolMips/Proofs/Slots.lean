import AlgolMips.Proofs.Semantics
import Mathlib.Data.List.Nodup

/-!
# Frame slots

Slots are handed out one after the other, so the `n`-th slot is known by its number. A lowering takes as many slots as
an expression or a statement has declarations, literals that are no strings, and operators. Each cell of a program gets
a slot of its own, and keeps it: what is declared later gets later slots (`Grows`), and no slot between is a cell.
-/

namespace AlgolMips

open Gen

/-! ## Numbered slots -/

/-- The offset of the slot with a number, for words of four bytes. -/
def slotAt (n : Nat) : Int64 := .ofInt (-(4 * n))

theorem slotAt_sub (n : Nat) : slotAt n - 4 = slotAt (n + 1) := by
  rw [slotAt, slotAt, show (4 : Int64) = .ofInt 4 from rfl, ← Int64.ofInt_sub]
  congr 1
  omega

theorem slotAt_inj {i j : Nat} (hi : i < 2 ^ 32) (hj : j < 2 ^ 32) (h : slotAt i = slotAt j) : i = j := by
  have hto : ∀ n : Nat, n < 2 ^ 32 → (slotAt n).toInt = -(4 * n) := by
    intro n hn
    exact Int64.toInt_ofInt_of_le (by omega) (by omega)
  have := congrArg Int64.toInt h
  rw [hto i hi, hto j hj] at this
  omega

/-- The number of slots that an expression takes. -/
def Expr.slots : {l : Level} → Expr l → Nat
  | _, .add left _ right => left.slots + right.slots + 1
  | _, .term e => e.slots
  | _, .mul left _ right => left.slots + right.slots + 1
  | _, .relation e => e.slots
  | _, .compare left _ right => left.slots + right.slots + 1
  | _, .factor e => e.slots
  | _, .missing => 0
  | _, .name _ => 0
  | _, .literal tok => if Ty.ofLiteral tok.value = .string then 0 else 1
  | _, .negation _ e => e.slots
  | _, .group _ e _ => e.slots

/-- The number of slots that a statement takes. -/
def Code.slots : {x : Extent} → Code x → Nat
  | _, .empty => 0
  | _, .declare _ _ => 1
  | _, .assign _ _ value => value.slots
  | _, .ifThen _ condition _ action => condition.slots + action.slots
  | _, .whileDo _ condition _ action => condition.slots + action.slots
  | _, .block _ inside _ => inside.slots
  | _, .read _ _ _ _ => 0
  | _, .write _ _ value _ => value.slots
  | _, .done => 0
  | _, .last s => s.slots
  | _, .next s _ rest => s.slots + rest.slots

def Program.slots : Program → Nat
  | bare _ => 0
  | block _ inside _ _ => inside.slots

/-! ## Cells of a symbol table -/

namespace SymbolTable

/-- All scopes, open or retired. -/
def scopes (t : SymbolTable) : List Scope := t.openScopes ++ t.retired

/-- A cell belongs to a variable. -/
def HasCell (t : SymbolTable) (c : Cell) (v : Variable) : Prop :=
  ∃ s ∈ t.scopes, s.id = c.block ∧ s.vars[c.index]? = some v

/-- The slot of a cell, found by the number of its scope. -/
def slot? (t : SymbolTable) (c : Cell) : Option Int64 :=
  ((t.scope? c.block).bind fun s => s.vars[c.index]?).map Variable.offset

theorem hasCell_enter {t : SymbolTable} {c : Cell} {v : Variable} : t.enter.HasCell c v ↔ t.HasCell c v := by
  simp [HasCell, scopes, enter, openScopes]

theorem scopes_leave {t : SymbolTable} : t.leave.scopes.Perm t.scopes := by
  unfold leave
  split
  · exact .refl _
  · next s rest h =>
    have hmove := @List.perm_append_comm _ (s :: (rest ++ t.retired)) [t.innermost]
    simpa [scopes, openScopes, h] using hmove

theorem hasCell_leave {t : SymbolTable} {c : Cell} {v : Variable} : t.leave.HasCell c v ↔ t.HasCell c v := by
  simp only [HasCell, scopes_leave.mem_iff]

theorem getElem?_concat_eq_some {xs : List Variable} {i : Nat} {v w : Variable} :
    (xs ++ [w])[i]? = some v ↔ xs[i]? = some v ∨ (i = xs.length ∧ v = w) := by
  rcases Nat.lt_trichotomy i xs.length with hlt | rfl | hgt
  · simp [List.getElem?_append_left hlt, Nat.ne_of_lt hlt]
  · simp [eq_comm]
  · rw [List.getElem?_eq_none (by simp; omega), List.getElem?_eq_none (by omega)]
    simp [Nat.ne_of_gt hgt]

/-- A declaration adds one cell. -/
theorem hasCell_bind {t : SymbolTable} {c : Cell} {v w : Variable} :
    (t.bind w).HasCell c v ↔ t.HasCell c v ∨ (c = ⟨t.innermost.id, t.innermost.vars.length⟩ ∧ v = w) := by
  constructor
  · rintro ⟨s, hs, hid, hat⟩
    rcases List.mem_cons.1 hs with rfl | hother
    · rcases getElem?_concat_eq_some.1 hat with hold | ⟨hindex, rfl⟩
      · exact .inl ⟨t.innermost, List.mem_cons_self, hid, hold⟩
      · exact .inr ⟨by rw [← hindex, show t.innermost.id = c.block from hid], rfl⟩
    · exact .inl ⟨s, List.mem_cons_of_mem _ hother, hid, hat⟩
  · rintro (⟨s, hs, hid, hat⟩ | ⟨rfl, rfl⟩)
    · rcases List.mem_cons.1 hs with rfl | hother
      · exact ⟨_, List.mem_cons_self, hid, getElem?_concat_eq_some.2 (.inl hat)⟩
      · exact ⟨s, List.mem_cons_of_mem _ hother, hid, hat⟩
    · exact ⟨_, List.mem_cons_self, rfl, getElem?_concat_eq_some.2 (.inr ⟨rfl, rfl⟩)⟩

end SymbolTable

/-! ## Slots along a lowering -/

/-- A frame and a symbol table after `n` slots: scopes have numbers of their own, and every cell has a slot of its own
among the first `n`. -/
structure Tally (f : Frame) (t : SymbolTable) (n : Nat) : Prop where
  frame : f = ⟨slotAt n, 4⟩
  numbers : (t.scopes.map Scope.id).Nodup
  opened : ∀ s ∈ t.scopes, s.id < t.scopes.length
  below : ∀ c v, t.HasCell c v → ∃ j < n, v.offset = slotAt j
  distinct : ∀ c v c' v', t.HasCell c v → t.HasCell c' v' → v.offset = v'.offset → c = c'

namespace Tally

variable {f : Frame} {t : SymbolTable} {n : Nat}

/-- A cell belongs to one variable. -/
theorem hasCell_unique (h : Tally f t n) {c : Cell} {v v' : Variable} (hv : t.HasCell c v) (hv' : t.HasCell c v') :
    v = v' := by
  obtain ⟨s, hs, hid, hat⟩ := hv
  obtain ⟨s', hs', hid', hat'⟩ := hv'
  have hsame : s = s' := List.inj_on_of_nodup_map h.numbers hs hs' (hid.trans hid'.symm)
  subst hsame
  rw [hat] at hat'
  exact Option.some.inj hat'

theorem slot?_of_hasCell (h : Tally f t n) {c : Cell} {v : Variable} (hv : t.HasCell c v) :
    t.slot? c = some v.offset := by
  obtain ⟨s, hs, hid, hat⟩ := hv
  have hfound : t.scope? c.block = some s := by
    cases hscope : t.scope? c.block with
    | none =>
      rw [SymbolTable.scope?, List.find?_eq_none] at hscope
      exact absurd (by simpa using hid) (hscope s hs)
    | some s' =>
      have hid' : s'.id = c.block := by simpa using List.find?_some hscope
      rw [List.inj_on_of_nodup_map h.numbers (List.mem_of_find?_eq_some hscope) hs (hid'.trans hid.symm)]
  simp [SymbolTable.slot?, hfound, hat]

theorem enter (h : Tally f t n) : Tally f t.enter n where
  frame := h.frame
  numbers := by
    -- a new scope is numbered by how many there are, open and retired
    have hfresh : t.depth + t.retired.length ∉ t.scopes.map Scope.id := by
      rintro hmem
      obtain ⟨s, hs, hid⟩ := List.mem_map.1 hmem
      have := h.opened s hs
      simp only [SymbolTable.scopes, SymbolTable.depth, List.length_append] at this hid
      omega
    exact List.nodup_cons.2 ⟨hfresh, h.numbers⟩
  opened := by
    intro s hs
    have hlen : t.enter.scopes.length = t.scopes.length + 1 := rfl
    rcases List.mem_cons.1 hs with rfl | hold
    · have hid : t.enter.innermost.id = t.scopes.length := by
        simp [SymbolTable.enter, SymbolTable.depth, SymbolTable.scopes]
      rw [hid, hlen]
      exact Nat.lt_succ_self _
    · exact hlen ▸ Nat.lt_succ_of_lt (h.opened s hold)
  below c v hv := h.below c v (SymbolTable.hasCell_enter.1 hv)
  distinct c v c' v' hv hv' :=
    h.distinct c v c' v' (SymbolTable.hasCell_enter.1 hv) (SymbolTable.hasCell_enter.1 hv')

theorem leave (h : Tally f t n) : Tally f t.leave n where
  frame := h.frame
  numbers := (SymbolTable.scopes_leave.map Scope.id).nodup_iff.2 h.numbers
  opened s hs := by
    rw [SymbolTable.scopes_leave.length_eq]
    exact h.opened s (SymbolTable.scopes_leave.mem_iff.1 hs)
  below c v hv := h.below c v (SymbolTable.hasCell_leave.1 hv)
  distinct c v c' v' hv hv' :=
    h.distinct c v c' v' (SymbolTable.hasCell_leave.1 hv) (SymbolTable.hasCell_leave.1 hv')

/-- A slot taken for a temporary belongs to no cell. -/
theorem temporaries (h : Tally f t n) (k : Nat) : Tally ⟨slotAt (n + k), 4⟩ t (n + k) where
  frame := rfl
  numbers := h.numbers
  opened := h.opened
  below c v hv := by
    obtain ⟨j, hj, hoffset⟩ := h.below c v hv
    exact ⟨j, Nat.lt_add_right k hj, hoffset⟩
  distinct := h.distinct

theorem bind (h : Tally f t n) (hn : n < 2 ^ 32) {w : Variable} (hw : w.offset = slotAt n) :
    Tally ⟨slotAt (n + 1), 4⟩ (t.bind w) (n + 1) where
  frame := rfl
  numbers := h.numbers
  opened s hs := by
    rcases List.mem_cons.1 hs with rfl | hother
    · exact h.opened t.innermost List.mem_cons_self
    · exact h.opened s (List.mem_cons_of_mem _ hother)
  below c v hv := by
    rcases SymbolTable.hasCell_bind.1 hv with hold | ⟨_, rfl⟩
    · obtain ⟨j, hj, hoffset⟩ := h.below c v hold
      exact ⟨j, Nat.lt_succ_of_lt hj, hoffset⟩
    · exact ⟨n, Nat.lt_succ_self n, hw⟩
  distinct c v c' v' hv hv' hsame := by
    -- the new slot comes after the slots of all older cells
    have hnew : ∀ c v, t.HasCell c v → v.offset ≠ w.offset := by
      intro c v hv heq
      obtain ⟨j, hj, hoffset⟩ := h.below c v hv
      rw [hoffset, hw] at heq
      exact Nat.ne_of_lt hj (slotAt_inj (Nat.lt_trans hj hn) hn heq)
    rcases SymbolTable.hasCell_bind.1 hv with hold | ⟨hc, rfl⟩ <;>
    rcases SymbolTable.hasCell_bind.1 hv' with hold' | ⟨hc', rfl⟩
    · exact h.distinct c v c' v' hold hold' hsame
    · exact absurd hsame (hnew c v hold)
    · exact absurd hsame.symm (hnew c' v' hold')
    · rw [hc, hc']

end Tally

/-- The cells of a symbol table are kept by a later one, whose other cells have slots from `n` up to `m`. -/
structure Grows (t t' : SymbolTable) (n m : Nat) : Prop where
  keeps : ∀ c v, t.HasCell c v → t'.HasCell c v
  fresh : ∀ c v, t'.HasCell c v → t.HasCell c v ∨ ∃ j, n ≤ j ∧ j < m ∧ v.offset = slotAt j

namespace Grows

variable {t t' t'' : SymbolTable} {n m k : Nat}

theorem refl (t : SymbolTable) (n m : Nat) : Grows t t n m := ⟨fun _ _ h => h, fun _ _ h => .inl h⟩

theorem of_iff (h : ∀ c v, t'.HasCell c v ↔ t.HasCell c v) (n m : Nat) : Grows t t' n m :=
  ⟨fun c v hv => (h c v).2 hv, fun c v hv => .inl ((h c v).1 hv)⟩

theorem trans (h : Grows t t' n m) (h' : Grows t' t'' m k) (hnm : n ≤ m) (hmk : m ≤ k) : Grows t t'' n k where
  keeps c v hv := h'.keeps c v (h.keeps c v hv)
  fresh c v hv := by
    rcases h'.fresh c v hv with hold | ⟨j, hj, hlt, hoffset⟩
    · rcases h.fresh c v hold with hfirst | ⟨j, hj, hlt, hoffset⟩
      · exact .inl hfirst
      · exact .inr ⟨j, hj, Nat.lt_of_lt_of_le hlt hmk, hoffset⟩
    · exact .inr ⟨j, Nat.le_trans hnm hj, hlt, hoffset⟩

end Grows

theorem Frame.alloc_slotAt (n : Nat) : (Frame.alloc ⟨slotAt n, 4⟩).2 = ⟨slotAt (n + 1), 4⟩ := by
  simp [Frame.alloc, slotAt_sub]

/-- An operator takes one slot behind those of its operands. -/
theorem Expr.Operates.frame {k l m : Level} {e : Expr k} {left : Expr l} {right : Expr m} {remark : Text}
    {code : List Mips.Instr} {result : Ty} {s : GenState} (h : e.Operates left right remark code result s) {n : Nat}
    (hf : (right.lower (left.lower s).state).state.frame = ⟨slotAt n, 4⟩) :
    (e.lower s).state.frame = ⟨slotAt (n + 1), 4⟩ := by
  rw [h.2]
  simp only [hf, Frame.alloc_slotAt]

section

variable {k l m : Level} {e : Expr k} {left : Expr l} {right : Expr m} {operation : Operation}

theorem Expr.Joins.slots (h : e.Joins left operation right) : e.slots = left.slots + right.slots + 1 := by
  cases h <;> rfl

theorem Expr.Wraps.slots (h : e.Wraps left) : e.slots = left.slots := by
  cases h <;> rfl

end

/-- A plain expression with a type takes the slots that it is counted for. -/
theorem Regular.frame_lower {Γ : Env} {l : Level} {e : Expr l} {τ : Ty} (h : Regular Γ e τ) {s : GenState} {n : Nat}
    (hΓ : s.table.env = Γ) (hf : s.frame = ⟨slotAt n, 4⟩) :
    (e.lower s).state.frame = ⟨slotAt (n + e.slots), 4⟩ := by
  induction h generalizing s n with
  | @joined _ _ _ _ left right _ _ _ hjoins htakes hl hr ihl ihr =>
    have hΓ' : (left.lower s).state.table.env = Γ := by rw [Expr.table_lower, hΓ]
    have hright := ihr hΓ' (ihl hΓ hf)
    rw [hjoins.slots, ← Nat.add_assoc, ← Nat.add_assoc]
    exact (hjoins.operates htakes (hΓ ▸ hl.hasType) (hΓ ▸ hr.hasType)).frame hright
  | wrapped hwraps _ ih =>
    rw [hwraps.state, hwraps.slots]
    exact ih hΓ hf
  | name hd =>
    subst hΓ
    obtain ⟨v, hres, _⟩ := SymbolTable.resolve_of_find? hd
    simpa [Expr.lower, Expr.slots, reference_ok hres] using hf
  | @literal tok _ _ =>
    by_cases hstring : Ty.ofLiteral tok.value = .string
    · simpa [Expr.lower, Expr.slots, hstring, (literal_string hstring).2] using hf
    · simp [Expr.lower, Expr.slots, hstring, (literal_immediate hstring).2, hf, Frame.alloc_slotAt]

theorem Expr.tally_lower {l : Level} (e : Expr l) {τ : Ty} (s : GenState) {n : Nat}
    (ht : HasType s.table.env e τ) (hp : e.Plain s.table.env) (h : Tally s.frame s.table n) :
    Tally (e.lower s).state.frame (e.lower s).state.table (n + e.slots) := by
  rw [(ht.regular hp).frame_lower rfl h.frame, Expr.table_lower]
  exact h.temporaries e.slots

theorem Expr.grows_lower {l : Level} (e : Expr l) (s : GenState) (n m : Nat) :
    Grows s.table (e.lower s).state.table n m := by
  rw [Expr.table_lower]
  exact .refl _ _ _

/-- A plain well-typed statement takes the slots that it is counted for, and gives some of them to its cells. -/
theorem Code.tally_lower {x : Extent} (c : Code x) (hv : c.Valid) (s : GenState) (hs : c.Scoped s.table.env)
    (ht : Typed s.table.env c) (hp : c.Plain s.table.env) {n : Nat} (hn : n + c.slots < 2 ^ 32)
    (h : Tally s.frame s.table n) :
    Tally (c.lower s).state.frame (c.lower s).state.table (n + c.slots) ∧
      Grows s.table (c.lower s).state.table n (n + c.slots) := by
  induction c generalizing s n with
  | empty => exact ⟨h, .refl _ _ _⟩
  | declare type name =>
    simp only [Code.lower, state_bind, state_enter]
    rw [state_declaration hv.2, (state_declare hs _).1, h.frame, Frame.alloc_slotAt]
    -- the one new cell has the slot with the number `n`
    refine ⟨h.bind (Nat.lt_of_succ_lt hn) rfl, ⟨fun c v hcell => ?_, fun c v hcell => ?_⟩⟩
    · exact SymbolTable.hasCell_bind.2 (.inl hcell)
    rcases SymbolTable.hasCell_bind.1 hcell with hold | ⟨_, rfl⟩
    · exact .inl hold
    · exact .inr ⟨n, Nat.le_refl n, Nat.lt_succ_self n, rfl⟩
  | assign target sign value =>
    cases ht with
    | assign hd hvalue =>
      obtain ⟨v, hres, _⟩ := SymbolTable.resolve_of_find? hd
      simp only [Code.lower, state_bind, state_enter, state_assignment hres]
      exact ⟨value.tally_lower { s with current := .inFrame v.ty v.offset } hvalue hp h,
        value.grows_lower { s with current := .inFrame v.ty v.offset } _ _⟩
  | ifThen opening condition middle action ih =>
    cases ht with
    | ifThen hcondition haction =>
      have hfirst := condition.tally_lower s hcondition hp.1 h
      simp only [Code.slots, ← Nat.add_assoc] at hn ⊢
      simp only [Code.lower, state_bind, state_enter, state_conditional]
      obtain ⟨htally, hgrows⟩ := ih hv.2.2.2
        { (condition.lower s).state with labels := (condition.lower s).state.labels + 1 } (by simpa using hs.2)
        (by simpa using haction) (by simpa using hp.2) hn hfirst
      exact ⟨htally, (condition.grows_lower s n _).trans hgrows (Nat.le_add_right _ _) (Nat.le_add_right _ _)⟩
  | whileDo opening condition middle action ih =>
    cases ht with
    | whileDo hcondition haction =>
      have hfirst := condition.tally_lower { s with labels := s.labels + 2 } hcondition hp.1 h
      simp only [Code.slots, ← Nat.add_assoc] at hn ⊢
      simp only [Code.lower, state_bind, state_enter, state_loop]
      obtain ⟨htally, hgrows⟩ := ih hv.2.2.2 (condition.lower { s with labels := s.labels + 2 }).state
        (by simpa using hs.2) (by simpa using haction) (by simpa using hp.2) hn hfirst
      exact ⟨htally, (condition.grows_lower { s with labels := s.labels + 2 } n _).trans hgrows
        (Nat.le_add_right _ _) (Nat.le_add_right _ _)⟩
  | block opening inside closing ih =>
    cases ht with
    | block hinside =>
      have henter := SymbolTable.env_enter s.table
      obtain ⟨htally, hgrows⟩ := ih hv.2.1 { s with table := s.table.enter } (by rw [henter]; exact hs)
        (by rw [henter]; exact hinside) (by rw [henter]; exact hp) hn h.enter
      simp only [Code.lower, state_bind, state_enter, state_block]
      refine ⟨htally.leave, ⟨fun c v hcell => ?_, fun c v hcell => ?_⟩⟩
      · exact SymbolTable.hasCell_leave.2 (hgrows.keeps c v (SymbolTable.hasCell_enter.2 hcell))
      · rcases hgrows.fresh c v (SymbolTable.hasCell_leave.1 hcell) with hold | hnew
        · exact .inl (SymbolTable.hasCell_enter.1 hold)
        · exact .inr hnew
  | read keyword opening target closing =>
    cases ht with
    | read hd _ =>
      obtain ⟨v, hres, _⟩ := SymbolTable.resolve_of_find? hd
      simp only [Code.lower, state_bind, state_enter, state_read hres]
      exact ⟨h, .refl _ _ _⟩
  | write keyword opening value closing =>
    cases ht with
    | write hvalue =>
      simp only [Code.lower, state_bind, state_enter, state_write]
      exact ⟨value.tally_lower s hvalue hp h, value.grows_lower _ _ _⟩
  | done => exact ⟨h, .refl _ _ _⟩
  | last c ih =>
    cases ht with
    | last ht => exact ih hv.1 s hs ht hp hn h
  | next c separator rest ihs ihr =>
    cases ht with
    | next hfirst hrest =>
      have hafter := c.env_lower hv.1 s hs.1
      simp only [Code.slots, ← Nat.add_assoc] at hn ⊢
      obtain ⟨htally, hgrows⟩ := ihs hv.1 s hs.1 hfirst hp.1 (by omega) h
      obtain ⟨htally', hgrows'⟩ := ihr hv.2.2 (c.lower s).state (by rw [hafter]; exact hs.2)
        (by rw [hafter]; exact hrest) (by rw [hafter]; exact hp.2) hn htally
      simp only [Code.lower, state_bind, state_expect]
      exact ⟨htally', hgrows.trans hgrows' (Nat.le_add_right _ _) (Nat.le_add_right _ _)⟩

end AlgolMips
