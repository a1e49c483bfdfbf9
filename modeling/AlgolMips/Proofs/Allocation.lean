import AlgolMips.Scope.Session
import AlgolMips.Proofs.Slots

/-!
# Slots along a session

Every call of a session either takes the free slot of the frame or leaves the frame as it is. So the slots that a session
hands out are, in order, the slots of a frame by number, and the variables of all scopes together with the temporaries
have exactly these slots. A slot comes back only when the offsets have gone once around the machine word.
-/

namespace AlgolMips

/-! ## The slots of a frame -/

namespace Frame

/-- The offset of the slot with a number. -/
def slot (wordSize : Int64) (k : Nat) : Int64 := .ofInt (-(k * wordSize.toInt))

/-- A frame of which some slots are taken. -/
def after (wordSize : Int64) (k : Nat) : Frame := ⟨slot wordSize k, wordSize⟩

variable {w : Int64}

@[simp] theorem after_zero : after w 0 = { wordSize := w } := by
  simp [after, slot]

@[simp] theorem alloc_after (k : Nat) : (after w k).alloc = (slot w k, after w (k + 1)) := by
  have hnext : slot w k - w = slot w (k + 1) := by
    rw [slot, slot, ← Int64.ofInt_toInt w, ← Int64.ofInt_sub, Int64.ofInt_toInt]
    congr 1
    rw [Int.natCast_add, Int.add_mul]
    omega
  simp [alloc, after, hnext]

/-- Two slots are one iff their distance goes around the machine word. -/
theorem slot_eq_iff {i j : Nat} : slot w i = slot w j ↔ (2 ^ 64 : Int) ∣ (i - j) * w.toInt := by
  have hsub : -(i * w.toInt) - -(j * w.toInt) = -((i - j) * w.toInt) := by
    rw [Int.sub_mul]
    omega
  rw [slot, slot, ← Int64.toInt_inj, Int64.toInt_ofInt, Int64.toInt_ofInt, Int.bmod_eq_bmod_iff_bmod_sub_eq_zero, hsub,
    ← Int.dvd_iff_bmod_eq_zero, Int.dvd_neg]
  rfl

/-- Slots of a positive size go down as long as they do not wrap around. -/
theorem slot_lt {i j n : Nat} (hw : 0 < w.toInt) (hn : n * w.toInt ≤ 2 ^ 63) (hij : i < j) (hj : j < n) :
    slot w j < slot w i := by
  have hbound : ∀ k : Nat, k < n → (slot w k).toInt = -(k * w.toInt) := by
    intro k hk
    have hle : k * w.toInt ≤ n * w.toInt := Int.mul_le_mul_of_nonneg_right (by omega) (by omega)
    have hnonneg : 0 ≤ k * w.toInt := Int.mul_nonneg (by omega) (by omega)
    exact Int64.toInt_ofInt_of_le (by omega) (by omega)
  rw [Int64.lt_iff_toInt_lt, hbound j hj, hbound i (by omega)]
  have : i * w.toInt < j * w.toInt := Int.mul_lt_mul_of_pos_right (by omega) hw
  omega

end Frame

/-! ## What a call takes -/

namespace Answer

/-- The variable that was declared. -/
def declared? : Answer → Option Variable
  | declared v => some v
  | _ => none

/-- The slot of the temporary that was handed out. -/
def temporary? : Answer → Option Int64
  | temporary offset => some offset
  | _ => none

/-- The slot that was handed out, to a variable or as a temporary. -/
def slot? : Answer → Option Int64
  | declared v => some v.offset
  | temporary offset => some offset
  | _ => none

/-- What is handed out goes to a variable or to a temporary. -/
theorem perm_slots (answers : List Answer) :
    ((answers.filterMap declared?).map Variable.offset ++ answers.filterMap temporary?).Perm
      (answers.filterMap slot?) := by
  induction answers with
  | nil => exact .refl _
  | cons a rest ih =>
    cases a with
    | declared v => exact ih.cons v.offset
    | temporary offset => exact List.perm_middle.trans (ih.cons offset)
    | entered | left | found | refused | shadowed | scope => exact ih

end Answer

/-- The variables of all scopes, open or retired. -/
def SymbolTable.declared (t : SymbolTable) : List Variable := t.scopes.flatMap Scope.vars

namespace SymbolTable

@[simp] theorem declared_enter (t : SymbolTable) : t.enter.declared = t.declared := by
  simp [declared, scopes, enter, openScopes]

theorem declared_leave (t : SymbolTable) : t.leave.declared.Perm t.declared := scopes_leave.flatMap_right _

theorem declared_bind (t : SymbolTable) (v : Variable) : (t.bind v).declared.Perm (v :: t.declared) := by
  simp [declared, scopes, bind, openScopes]

end SymbolTable

namespace Session

/-- What a call can do: it opens a scope, closes one, takes a slot for a temporary, binds a name that the innermost scope
does not have in the next slot, or changes nothing. -/
theorem perform_cases (s : Session) (c : Call) :
    (c = .enter ∧ s.perform c = (.entered s.table.enter.innermost.id, ⟨s.table.enter, s.frame⟩)) ∨
      (c = .leave ∧ s.perform c = (.left, ⟨s.table.leave, s.frame⟩)) ∨
      (c = .temporary ∧ s.perform c = (.temporary s.frame.alloc.1, ⟨s.table, s.frame.alloc.2⟩)) ∨
      (∃ tok ty v, c = .declare tok ty ∧ s.table.innermost.find? tok.value = none ∧
        v = (⟨{ tok with value := tok.value.fold }, ty, s.frame.alloc.1⟩ : Variable) ∧
        s.perform c = (.declared v, ⟨s.table.bind v, s.frame.alloc.2⟩)) ∨
      (c ≠ .enter ∧ c ≠ .leave ∧ (s.perform c).1.slot? = none ∧ (s.perform c).1.declared? = none ∧
        (s.perform c).2 = s) := by
  cases c with
  | enter => exact .inl ⟨rfl, rfl⟩
  | leave => exact .inr (.inl ⟨rfl, rfl⟩)
  | temporary => exact .inr (.inr (.inl ⟨rfl, rfl⟩))
  | shadows name => exact .inr (.inr (.inr (.inr ⟨nofun, nofun, rfl, rfl, rfl⟩)))
  | scope id => cases id <;> exact .inr (.inr (.inr (.inr ⟨nofun, nofun, rfl, rfl, rfl⟩)))
  | resolve name =>
    refine .inr (.inr (.inr (.inr ⟨nofun, nofun, ?_⟩)))
    simp only [perform]
    split <;> exact ⟨rfl, rfl, rfl⟩
  | declare tok ty =>
    cases hfind : s.table.innermost.find? tok.value with
    | some previous =>
      refine .inr (.inr (.inr (.inr ⟨nofun, nofun, ?_⟩)))
      simp [perform, SymbolTable.declare, hfind, Answer.slot?, Answer.declared?]
    | none =>
      refine .inr (.inr (.inr (.inl ⟨tok, ty, _, rfl, hfind, rfl, ?_⟩)))
      simp only [perform, SymbolTable.declare, hfind]
      rfl

/-- A call takes the free slot, or leaves the frame as it is. -/
theorem perform_frame (s : Session) (c : Call) :
    ((s.perform c).1.slot? = none ∧ (s.perform c).2.frame = s.frame) ∨
      ((s.perform c).1.slot? = some s.frame.alloc.1 ∧ (s.perform c).2.frame = s.frame.alloc.2) := by
  rcases s.perform_cases c with ⟨-, h⟩ | ⟨-, h⟩ | ⟨-, h⟩ | ⟨tok, ty, v, -, -, rfl, h⟩ | ⟨-, -, hslot, -, h⟩
  · exact .inl (by rw [h]; exact ⟨rfl, rfl⟩)
  · exact .inl (by rw [h]; exact ⟨rfl, rfl⟩)
  · exact .inr (by rw [h]; exact ⟨rfl, rfl⟩)
  · exact .inr (by rw [h]; exact ⟨rfl, rfl⟩)
  · exact .inl ⟨hslot, by rw [h]⟩

/-- What a call does to the table: it opens a scope, closes one, binds a name that the innermost scope does not have, or
leaves the table as it is. -/
theorem perform_table (s : Session) (c : Call) :
    (c = .enter ∧ (s.perform c).2.table = s.table.enter) ∨ (c = .leave ∧ (s.perform c).2.table = s.table.leave) ∨
      (c ≠ .enter ∧ c ≠ .leave ∧ ((s.perform c).2.table = s.table ∨ ∃ (tok : Token) (ty : Ty) (offset : Int64),
        s.table.innermost.find? tok.value = none ∧
          (s.perform c).2.table = s.table.bind ⟨{ tok with value := tok.value.fold }, ty, offset⟩)) := by
  rcases s.perform_cases c with ⟨hc, h⟩ | ⟨hc, h⟩ | ⟨rfl, h⟩ | ⟨tok, ty, v, rfl, hnone, rfl, h⟩ | ⟨hc, hc', -, -, h⟩
  · exact .inl ⟨hc, by rw [h]⟩
  · exact .inr (.inl ⟨hc, by rw [h]⟩)
  · exact .inr (.inr ⟨nofun, nofun, .inl (by rw [h])⟩)
  · exact .inr (.inr ⟨nofun, nofun, .inr ⟨tok, ty, s.frame.alloc.1, hnone, by rw [h]⟩⟩)
  · exact .inr (.inr ⟨hc, hc', .inl (by rw [h])⟩)

/-- A refusal changes nothing. -/
theorem perform_refused {s : Session} {c : Call} {e : NameError} (hrefused : (s.perform c).1 = .refused e) :
    (s.perform c).2 = s := by
  rcases s.perform_cases c with ⟨-, h⟩ | ⟨-, h⟩ | ⟨-, h⟩ | ⟨tok, ty, v, -, -, -, h⟩ | ⟨-, -, -, -, h⟩
  · rw [h] at hrefused
    cases hrefused
  · rw [h] at hrefused
    cases hrefused
  · rw [h] at hrefused
    cases hrefused
  · rw [h] at hrefused
    cases hrefused
  · exact h

/-- A call adds the variable that it declares, and moves or drops none. -/
theorem perform_declared (s : Session) (c : Call) :
    (s.perform c).2.table.declared.Perm ((s.perform c).1.declared?.toList ++ s.table.declared) := by
  rcases s.perform_cases c with ⟨-, h⟩ | ⟨-, h⟩ | ⟨-, h⟩ | ⟨tok, ty, v, -, -, -, h⟩ | ⟨-, -, -, hnone, h⟩
  · rw [h]
    exact .of_eq s.table.declared_enter
  · rw [h]
    exact s.table.declared_leave
  · rw [h]
    exact .refl _
  · rw [h]
    exact s.table.declared_bind v
  · rw [h, hnone]
    exact .refl _

/-! ## What a session takes -/

@[simp] theorem run_append (s : Session) (first second : List Call) :
    s.run (first ++ second) = (s.run first).run second := by
  induction first generalizing s with
  | nil => rfl
  | cons c rest ih => exact ih _

@[simp] theorem answers_append (s : Session) (first second : List Call) :
    s.answers (first ++ second) = s.answers first ++ (s.run first).answers second := by
  induction first generalizing s with
  | nil => rfl
  | cons c rest ih => exact congrArg _ (ih _)

/-- The slots handed out for some calls, in order. -/
def slots (s : Session) (calls : List Call) : List Int64 := (s.answers calls).filterMap Answer.slot?

/-- The slots handed out as temporaries for some calls, in order. -/
def temporaries (s : Session) (calls : List Call) : List Int64 := (s.answers calls).filterMap Answer.temporary?

@[simp] theorem temporaries_append (s : Session) (first second : List Call) :
    s.temporaries (first ++ second) = s.temporaries first ++ (s.run first).temporaries second := by
  simp [temporaries]

/-- Slots are handed out by number, without a gap. -/
theorem slots_eq {w : Int64} {n : Nat} {s : Session} (h : s.frame = .after w n) (calls : List Call) :
    s.slots calls = (List.range' n (s.slots calls).length).map (Frame.slot w) ∧
      (s.run calls).frame = .after w (n + (s.slots calls).length) := by
  induction calls generalizing s n with
  | nil => exact ⟨rfl, h⟩
  | cons c rest ih =>
    rcases s.perform_frame c with ⟨hnone, hframe⟩ | ⟨hsome, hframe⟩
    · have hslots : s.slots (c :: rest) = (s.perform c).2.slots rest := List.filterMap_cons_none hnone
      rw [hslots]
      exact ih (hframe.trans h)
    · have hslots : s.slots (c :: rest) = Frame.slot w n :: (s.perform c).2.slots rest := by
        rw [h, Frame.alloc_after] at hsome
        exact List.filterMap_cons_some hsome
      rw [h, Frame.alloc_after] at hframe
      obtain ⟨heq, hrun⟩ := ih hframe
      rw [hslots, List.length_cons, List.range'_succ, List.map_cons, ← heq]
      exact ⟨rfl, by rw [run, hrun, Nat.add_right_comm, Nat.add_assoc]⟩

/-- The variables after a session are those from before it and those that it declared. -/
theorem declared_run (s : Session) (calls : List Call) :
    (s.run calls).table.declared.Perm (s.table.declared ++ (s.answers calls).filterMap Answer.declared?) := by
  induction calls generalizing s with
  | nil => exact .of_eq (List.append_nil _).symm
  | cons c rest ih =>
    refine (ih _).trans (((s.perform_declared c).append_right _).trans ?_)
    cases hv : (s.perform c).1.declared? with
    | none => simp [answers, hv]
    | some v =>
      simpa [answers, hv] using List.perm_middle.symm

section Fresh

variable {w : Int64} {calls : List Call}

theorem slots_fresh (w : Int64) (calls : List Call) :
    (fresh w).slots calls = (List.range ((fresh w).slots calls).length).map (Frame.slot w) := by
  rw [List.range_eq_range']
  exact (slots_eq Frame.after_zero.symm calls).1

theorem eq_of_getElem?_slots {k : Nat} {offset : Int64} (h : ((fresh w).slots calls)[k]? = some offset) :
    offset = Frame.slot w k := by
  rw [slots_fresh, List.getElem?_map, Option.map_eq_some_iff] at h
  obtain ⟨i, hi, rfl⟩ := h
  obtain ⟨_, rfl⟩ := List.getElem?_eq_some_iff.1 hi
  rw [List.getElem_range]

theorem getElem?_slots {k : Nat} (hk : k < ((fresh w).slots calls).length) :
    ((fresh w).slots calls)[k]? = some (Frame.slot w k) := by
  rw [List.getElem?_eq_getElem hk, eq_of_getElem?_slots (List.getElem?_eq_getElem hk)]

theorem getElem?_slots_inj {i j : Nat} (hi : i < ((fresh w).slots calls).length)
    (hj : j < ((fresh w).slots calls).length) :
    ((fresh w).slots calls)[i]? = ((fresh w).slots calls)[j]? ↔ (2 ^ 64 : Int) ∣ (i - j) * w.toInt := by
  rw [getElem?_slots hi, getElem?_slots hj, Option.some_inj, Frame.slot_eq_iff]

theorem pairwise_slots_of_fits (hpos : 0 < w.toInt) (hfits : ((fresh w).slots calls).length * w.toInt ≤ 2 ^ 63) :
    ((fresh w).slots calls).Pairwise (· > ·) := by
  rw [slots_fresh, List.pairwise_map]
  refine List.pairwise_lt_range.imp_of_mem ?_
  intro i j _ hj hij
  exact Frame.slot_lt hpos hfits hij (List.mem_range.1 hj)

theorem pairwise_slots (hpos : 0 < w.toInt) (hsmall : w.toInt < 2 ^ 31)
    (hfew : ((fresh w).slots calls).length < 2 ^ 32) : ((fresh w).slots calls).Pairwise (· > ·) := by
  have hle : ((fresh w).slots calls).length * w.toInt ≤ 2 ^ 32 * 2 ^ 31 :=
    Int.mul_le_mul (by omega) (by omega) (by omega) (by omega)
  exact pairwise_slots_of_fits hpos (by omega)

/-- The variables of all scopes and the temporaries have exactly the slots handed out. -/
theorem perm_taken (w : Int64) (calls : List Call) :
    let t := ((fresh w).run calls).table
    (((t.active ++ t.retired).flatMap Scope.vars).map Variable.offset ++ (fresh w).temporaries calls).Perm
      ((fresh w).slots calls) := by
  intro t
  have hactive : (t.active ++ t.retired).Perm t.scopes := (List.reverse_perm _).append_right _
  have hdeclared : t.declared.Perm (((fresh w).answers calls).filterMap Answer.declared?) :=
    declared_run (fresh w) calls
  exact ((((hactive.flatMap_right _).trans hdeclared).map _).append_right _).trans (Answer.perm_slots _)

end Fresh

end Session

end AlgolMips
