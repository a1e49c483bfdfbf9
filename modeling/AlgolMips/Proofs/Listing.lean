import AlgolMips.Proofs.Plans
import AlgolMips.Proofs.ScopeStack
import AlgolMips.Proofs.Texts

/-!
# Scopes are closed and listed

A lowering leaves every scope that it enters, however the tokens go wrong, so that behind a program only the outermost
scope is open, and nothing was ever declared in it. Scopes are retired from the inside out: in the order in which scopes
are or will be left (`SymbolTable.leaving`), none ever changes places with another.

A scope holds what was declared while it was the innermost one, in the order of the declarations (`Session.vars_run`). A
listing sorts the variables of a scope by their slots, from the highest to the lowest. Slots go down, so this is the order
of the declarations as long as the slots do not wrap around.
-/

namespace AlgolMips

open Gen

/-! ## The order in which scopes are left -/

/-- The numbers of the scopes in the order in which they were left or will be. -/
def SymbolTable.leaving (t : SymbolTable) : List Nat := (t.retired ++ t.openScopes).map Scope.id

theorem SymbolTable.openScopes_of_active {t : SymbolTable} {r : Scope} (h : t.active = [r]) : t.openScopes = [r] := by
  rw [← List.reverse_reverse t.openScopes]
  exact congrArg List.reverse h

namespace Session

/-- A scope that is entered will be left before those around it, and no two scopes change places. -/
theorem leaving_perform (s : Session) (c : Call) : s.table.leaving.Sublist (s.perform c).2.table.leaving := by
  rcases s.perform_table c with ⟨-, heq⟩ | ⟨-, heq⟩ | ⟨-, -, heq | ⟨tok, ty, offset, -, heq⟩⟩
  · rw [heq]
    exact ((List.sublist_cons_self _ _).append_left _).map _
  · rw [heq]
    cases henclosing : s.table.enclosing with
    | nil => rw [SymbolTable.leave_of_outermost henclosing]
    | cons r rest =>
      rw [SymbolTable.leave_of_enclosing henclosing]
      simp [SymbolTable.leaving, SymbolTable.openScopes, henclosing]
  · rw [heq]
  · rw [heq]
    simp [SymbolTable.leaving, SymbolTable.openScopes, SymbolTable.bind]

theorem leaving_run (s : Session) (calls : List Call) : s.table.leaving.Sublist (s.run calls).table.leaving := by
  induction calls generalizing s with
  | nil => exact .refl _
  | cons c rest ih => exact (s.leaving_perform c).trans (ih _)

/-- Where only the outermost scope is open in the end, every other scope was left after those that were opened in it. -/
theorem retired_inside_out {s : Session} {before after : List Call} {r : Scope}
    (hend : (s.run (before ++ .enter :: after)).table.active = [⟨0, 0, []⟩])
    (hr : r ∈ (s.run before).table.active) (hinner : r.id ≠ 0) :
    [(s.run before).table.opened.id, r.id].Sublist ((s.run (before ++ .enter :: after)).table.retired.map Scope.id) := by
  have hopen : [r.id].Sublist ((s.run before).table.openScopes.map Scope.id) :=
    List.singleton_sublist.2 (List.mem_map_of_mem (List.mem_reverse.1 hr))
  have hentered : [(s.run before).table.opened.id, r.id].Sublist ((s.run before).perform .enter).2.table.leaving := by
    rw [SymbolTable.leaving, List.map_append]
    exact (hopen.cons_cons _).trans (List.sublist_append_right _ _)
  have hlast := hentered.trans (leaving_run _ after)
  rw [run_append] at hend ⊢
  rw [← run, SymbolTable.leaving, SymbolTable.openScopes_of_active hend, List.map_append, List.sublist_append_iff] at hlast
  obtain ⟨front, back, heq, hfront, hback⟩ := hlast
  -- the outermost scope is left over in the end, and it is none of the two
  rcases List.sublist_singleton.1 hback with rfl | rfl
  · rw [List.append_nil] at heq
    exact heq ▸ hfront
  · have hzero := congrArg List.getLast? heq
    rw [List.getLast?_concat] at hzero
    exact absurd (Option.some.inj hzero) hinner

end Session

/-! ## The variables of a scope -/

/-- The variables of the scope with a number. -/
def SymbolTable.vars (t : SymbolTable) (id : Nat) : List Variable := ((t.scope? id).map Scope.vars).getD []

namespace SymbolTable

variable {t : SymbolTable}

theorem Stacked.vars_eq (h : t.Stacked) {s : Scope} (hs : s ∈ t.active ++ t.retired) : t.vars s.id = s.vars := by
  rw [vars, h.scope?_eq_some_iff.2 ⟨hs, rfl⟩]
  rfl

theorem Stacked.vars_enter (h : t.Stacked) (id : Nat) : t.enter.vars id = t.vars id := by
  by_cases hid : t.opened.id = id
  · have hnew : t.scope? id = none := by
      refine List.find?_eq_none.2 fun s hs => ?_
      have hlt := h.id_lt (s := s) (by simpa [active] using hs)
      rw [← t.opened_id, hid] at hlt
      simp [Nat.ne_of_lt hlt]
    have hopened : t.enter.scope? id = some t.opened := List.find?_cons_of_pos (decide_eq_true hid)
    rw [vars, vars, hnew, hopened]
    rfl
  · have hsame : t.enter.scope? id = t.scope? id := List.find?_cons_of_neg fun h => hid (of_decide_eq_true h)
    rw [vars, hsame, vars]

theorem Stacked.vars_leave (h : t.Stacked) (id : Nat) : t.leave.vars id = t.vars id := by
  have hmem (s : Scope) : s ∈ t.leave.active ++ t.leave.retired ↔ s ∈ t.active ++ t.retired := by
    simpa [active, scopes] using (scopes_leave (t := t)).mem_iff (a := s)
  have hsame : t.leave.scope? id = t.scope? id := by
    ext s
    rw [h.leave.scope?_eq_some_iff, h.scope?_eq_some_iff, hmem]
  rw [vars, hsame, vars]

theorem vars_bind (t : SymbolTable) (v : Variable) (id : Nat) :
    (t.bind v).vars id = t.vars id ++ if t.innermost.id = id then [v] else [] := by
  by_cases hid : t.innermost.id = id
  · have hfound : t.scope? id = some t.innermost := List.find?_cons_of_pos (decide_eq_true hid)
    have hbound : (t.bind v).scope? id = some { t.innermost with vars := t.innermost.vars ++ [v] } :=
      List.find?_cons_of_pos (decide_eq_true hid)
    rw [vars, hbound, vars, hfound, if_pos hid]
    rfl
  · have hfound : t.scope? id = (t.enclosing ++ t.retired).find? fun s => s.id = id :=
      List.find?_cons_of_neg fun h => hid (of_decide_eq_true h)
    have hbound : (t.bind v).scope? id = (t.enclosing ++ t.retired).find? fun s => s.id = id :=
      List.find?_cons_of_neg fun h => hid (of_decide_eq_true h)
    rw [vars, hbound, ← hfound, if_neg hid, List.append_nil, vars]

end SymbolTable

namespace Session

/-- The variables that some calls declare while the scope with a number is the innermost one, in order. -/
def declaredIn (s : Session) (id : Nat) : List Call → List Variable
  | [] => []
  | c :: rest =>
    (if s.table.innermost.id = id then (s.perform c).1.declared?.toList else []) ++ (s.perform c).2.declaredIn id rest

/-- The variables that some calls declare, in order. -/
def declared (s : Session) (calls : List Call) : List Variable := (s.answers calls).filterMap Answer.declared?

/-- A call adds to the innermost scope the variable that it declares, and nothing to any other. -/
theorem vars_perform {s : Session} (h : s.table.Stacked) (c : Call) (id : Nat) :
    (s.perform c).2.table.vars id =
      s.table.vars id ++ if s.table.innermost.id = id then (s.perform c).1.declared?.toList else [] := by
  rcases s.perform_cases c with ⟨-, heq⟩ | ⟨-, heq⟩ | ⟨-, heq⟩ | ⟨tok, ty, v, -, -, -, heq⟩ | ⟨-, -, -, hnone, heq⟩
  · rw [heq]
    simpa [Answer.declared?] using h.vars_enter id
  · rw [heq]
    simpa [Answer.declared?] using h.vars_leave id
  · rw [heq]
    simp [Answer.declared?]
  · rw [heq]
    exact s.table.vars_bind v id
  · rw [heq, hnone]
    simp

theorem vars_run {s : Session} (h : s.table.Stacked) (calls : List Call) (id : Nat) :
    (s.run calls).table.vars id = s.table.vars id ++ s.declaredIn id calls := by
  induction calls generalizing s with
  | nil => exact (List.append_nil _).symm
  | cons c rest ih => rw [run, ih (stacked_perform h c), vars_perform h, declaredIn, List.append_assoc]

theorem declaredIn_sublist (s : Session) (id : Nat) (calls : List Call) :
    (s.declaredIn id calls).Sublist (s.declared calls) := by
  induction calls generalizing s with
  | nil => exact .refl _
  | cons c rest ih =>
    have hdeclared : s.declared (c :: rest) = (s.perform c).1.declared?.toList ++ (s.perform c).2.declared rest := by
      cases hv : (s.perform c).1.declared? <;> simp [declared, answers, hv]
    rw [declaredIn, hdeclared]
    refine List.Sublist.append ?_ (ih _)
    split
    · exact .refl _
    · exact List.nil_sublist _

/-- Variables have slots that are handed out in the order of their declarations. -/
theorem offsets_sublist (s : Session) (calls : List Call) :
    ((s.declared calls).map Variable.offset).Sublist (s.slots calls) := by
  rw [declared, slots, List.map_filterMap]
  induction s.answers calls with
  | nil => exact .refl _
  | cons a rest ih =>
    cases a with
    | declared v => exact ih.cons_cons _
    | temporary offset => exact ih.cons _
    | entered | left | found | refused | shadowed | scope => exact ih

end Session

/-! ## Listings -/

/-- The lines under which variables are listed as a scope with a number. A scope without variables is not listed. -/
def listed (n : Nat) : List Variable → List Text
  | [] => []
  | vars@(_ :: _) => ("Scope " ++ Text.ofNat n ++ ":") :: vars.map fun v => "    " ++ v.describe

/-- Variables whose slots go down are listed as they were declared. -/
theorem Scope.bySlot_eq {s : Scope} (h : (s.vars.map Variable.offset).Pairwise (· > ·)) : s.bySlot = s.vars := by
  refine List.mergeSort_of_pairwise ((List.pairwise_map.1 h).imp ?_)
  intro v w hlt
  simpa using Int.le_of_lt (Int64.lt_iff_toInt_lt.1 hlt)

/-- A listing names the outermost scope, and has a block for every retired scope with variables. -/
theorem SymbolTable.dump_eq {t : SymbolTable} (hempty : t.active = [⟨0, 0, []⟩])
    (hdown : ∀ s ∈ t.retired, (s.vars.map Variable.offset).Pairwise (· > ·)) :
    t.dump = Text.unlines ("Scope 0:" :: (t.retired.mapIdx fun i s => listed (i + 1) s.vars).flatten) := by
  have hblocks : (t.retired.mapIdx fun i s => if s.vars.isEmpty then Text.empty else s.dump (i + 1)) =
      (t.retired.mapIdx fun i s => listed (i + 1) s.vars).map Text.unlines := by
    refine List.ext_getElem (by simp) fun i hi _ => ?_
    rw [List.length_mapIdx] at hi
    have hs := Scope.bySlot_eq (hdown t.retired[i] (List.getElem_mem hi))
    rw [List.getElem_map, List.getElem_mapIdx, List.getElem_mapIdx, Scope.dump, hs]
    cases t.retired[i].vars with
    | nil => rfl
    | cons v rest => rfl
  have hfirst : t.outermost.dump 0 = Text.unlines ["Scope 0:"] := by
    obtain ⟨hinner, henclosing⟩ := List.cons.inj (openScopes_of_active hempty)
    rw [outermost, hinner, henclosing]
    decide +kernel
  rw [dump, hblocks, Text.concat_map_unlines, hfirst, ← Text.unlines_append]
  rfl

/-! ## What a lowering asks for -/

/-- Whether a step is a call of the session. -/
def Step.asks : Step Token → Bool
  | declare _ | enter | leave => true
  | pass _ | take _ _ => false

theorem Step.shows_of_asks {step : Step Token} (h : step.asks) : step.shows := by
  cases step with
  | declare | enter | leave => rfl
  | pass | take => cases h

/-- What an act tells of the calls: its step, if that is a call. -/
theorem Act.filter_step? (a : Act) : a.step?.filter Step.asks = a.call?.bind fun c => (Act.call c).step? := by
  cases a with
  | call c => cases c <;> rfl
  | event e =>
    unfold step?
    split <;> first | rfl | contradiction

/-- The calls of a lowering: its table and frame come from them, and they enter scopes, declare names and leave scopes as
the plan for its tokens says. -/
structure Lowering.Asks (t : Lowering) (wordSize : Int64) (source : TokenSource) (calls : List Call) : Prop where
  session : t.state.session = (Session.fresh wordSize).run calls
  planned : calls.filterMap (fun c => (Act.call c).step?) = (source.plan.map (Step.map source.token)).filter Step.asks

theorem exists_asks (wordSize : Int64) (source : TokenSource) :
    ∃ calls, (lower wordSize source).Asks wordSize source calls := by
  obtain ⟨acts, -, hsession, hsteps⟩ := (lower_goesByPlan wordSize source).acts
  refine ⟨acts.filterMap Act.call?, hsession, ?_⟩
  have hshows (step : Step Token) : (step.shows && step.asks) = step.asks := by
    cases hasks : step.asks with
    | false => exact Bool.and_false _
    | true => rw [Step.shows_of_asks hasks, Bool.and_self]
  have hplan := congrArg (List.filter Step.asks) hsteps
  simp only [List.filter_filterMap, List.filter_filter, Act.filter_step?, Bool.and_comm (Step.asks _), hshows] at hplan
  rw [List.filterMap_filterMap]
  exact hplan

/-! ## Balanced scopes -/

/-- A program leaves the scopes that it enters, whatever is missing from it. -/
theorem Program.openScopes_lower (p : Program) (next : Token) (s : GenState) :
    (p.lower next s).state.table.openScopes = s.table.openScopes := by
  have hbody (s : GenState) : (p.body s).state.table.openScopes = s.table.openScopes := by
    cases p with
    | bare stop => simp [Program.body]
    | block opening inside closing stop =>
      have hin : _ = s.table.innermost :: s.table.enclosing := inside.enclosing_lower { s with table := s.table.enter }
      simp [Program.body, state_block, SymbolTable.leave_of_enclosing hin, SymbolTable.openScopes]
  have htrailing (s : GenState) : ((if next.isEof then pure () else Gen.remark next .trailing : Gen Unit) s).state = s := by
    split <;> rfl
  simp [Program.lower, hbody, htrailing]

theorem active_lower (wordSize : Int64) (source : TokenSource) : (lower wordSize source).table.active = [⟨0, 0, []⟩] :=
  congrArg List.reverse (source.parse.1.openScopes_lower (source.parse.2.headD source.eof) { frame := { wordSize } })

namespace Session

variable {wordSize : Int64} {calls : List Call}

/-- Where only the outermost scope is open, the retired scopes are all the others. -/
theorem perm_retired (h : ((fresh wordSize).run calls).table.active = [⟨0, 0, []⟩]) :
    (((fresh wordSize).run calls).table.retired.map Scope.id).Perm (List.range' 1 (calls.count .enter)) := by
  have hnumbered := (stacked_run (s := fresh wordSize) SymbolTable.stacked_fresh calls).numbered
  have hlength : (((fresh wordSize).run calls).table.active ++ ((fresh wordSize).run calls).table.retired).length =
      1 + calls.count .enter :=
    ((List.reverse_perm _).append_right _).length_eq.trans (scopes_run (fresh wordSize) calls)
  rw [hlength, h, List.range_eq_range', Nat.add_comm, List.range'_succ] at hnumbered
  exact hnumbered.cons_inv

theorem perm_declared (h : ((fresh wordSize).run calls).table.active = [⟨0, 0, []⟩]) :
    (((fresh wordSize).run calls).table.retired.flatMap Scope.vars).Perm ((fresh wordSize).declared calls) := by
  have hdeclared := declared_run (fresh wordSize) calls
  rw [SymbolTable.declared, SymbolTable.scopes, SymbolTable.openScopes_of_active h] at hdeclared
  exact hdeclared

/-- A retired scope has the variables that were declared in it. -/
theorem vars_retired {s : Scope} (hs : s ∈ ((fresh wordSize).run calls).table.retired) :
    s.vars = (fresh wordSize).declaredIn s.id calls := by
  have hstacked := stacked_run (s := fresh wordSize) SymbolTable.stacked_fresh calls
  have hempty : (fresh wordSize).table.vars s.id = [] := by
    cases s.id <;> rfl
  rw [← hstacked.vars_eq (List.mem_append_right _ hs), vars_run SymbolTable.stacked_fresh, hempty, List.nil_append]

/-- Where the slots of variables go down, a listing has them in the scopes and in the order of their declarations. -/
theorem dump_run (h : ((fresh wordSize).run calls).table.active = [⟨0, 0, []⟩])
    (hdown : (((fresh wordSize).declared calls).map Variable.offset).Pairwise (· > ·)) :
    ((fresh wordSize).run calls).table.dump = Text.unlines ("Scope 0:" ::
      (((fresh wordSize).run calls).table.retired.mapIdx fun i s =>
        listed (i + 1) ((fresh wordSize).declaredIn s.id calls)).flatten) := by
  have hscopes : ∀ s ∈ ((fresh wordSize).run calls).table.retired, (s.vars.map Variable.offset).Pairwise (· > ·) := by
    intro s hs
    rw [vars_retired hs]
    exact hdown.sublist ((declaredIn_sublist _ s.id calls).map _)
  rw [SymbolTable.dump_eq h hscopes]
  congr 3
  refine List.mapIdx_eq_mapIdx_iff.2 fun i hi => ?_
  rw [vars_retired (List.getElem_mem hi)]

end Session

/-- Scopes are balanced, and no declaration is lost. Whatever the tokens are, only the outermost scope is open behind a
lowering, and it is empty. The scopes that were entered are retired, each of them once, and each before those that were
open around it. They have the variables that were declared successfully, each of them once, in the scope that was the
innermost one, in the order of the declarations. A listing shows them so, unless the slots have wrapped around. -/
theorem scopes_closed_and_listed (wordSize : Int64) (source : TokenSource) :
    let t := lower wordSize source
    let start := Session.fresh wordSize
    t.table.active = [⟨0, 0, []⟩] ∧ (∃ calls, t.Asks wordSize source calls) ∧
    ∀ calls, t.Asks wordSize source calls →
      (t.table.retired.map Scope.id).Perm (List.range' 1 (calls.count .enter)) ∧
      (∀ before after, calls = before ++ .enter :: after →
        ∀ r ∈ (start.run before).table.active, r.id ≠ 0 →
          [(start.run before).table.opened.id, r.id].Sublist (t.table.retired.map Scope.id)) ∧
      (t.table.retired.flatMap Scope.vars).Perm (start.declared calls) ∧
      (∀ s ∈ t.table.retired, s.vars = start.declaredIn s.id calls) ∧
      (0 < wordSize.toInt → (start.slots calls).length * wordSize.toInt ≤ 2 ^ 63 →
        ((start.declared calls).map Variable.offset).Pairwise (· > ·) ∧
        t.table.dump = Text.unlines ("Scope 0:" ::
          (t.table.retired.mapIdx fun i s => listed (i + 1) (start.declaredIn s.id calls)).flatten)) := by
  intro t start
  refine ⟨active_lower wordSize source, exists_asks wordSize source, fun calls hasks => ?_⟩
  have htable : t.table = (start.run calls).table := congrArg Session.table hasks.session
  have hactive : (start.run calls).table.active = [⟨0, 0, []⟩] := htable ▸ active_lower wordSize source
  rw [htable]
  refine ⟨Session.perm_retired hactive, ?_, Session.perm_declared hactive, fun s => Session.vars_retired, ?_⟩
  · rintro before after rfl r hr hinner
    exact Session.retired_inside_out hactive hr hinner
  · intro hpos hfits
    have hdown := (Session.pairwise_slots_of_fits hpos hfits).sublist (start.offsets_sublist calls)
    exact ⟨hdown, Session.dump_run hactive hdown⟩

/-- The inside of a block: two declarations of one name, without an end behind them. -/
def brokenOffInside : List Token :=
  [.plain .typeName "logical", .plain .ident "Y", .plain .semi ";", .plain .typeName "string", .plain .ident "y"]

def brokenOffBody : List Token :=
  .plain .typeName "integer" :: .plain .ident "x" :: .plain .semi ";" :: .plain .begin "begin" :: brokenOffInside

/-- A program that breaks off in a scope inside another one. -/
def brokenOff : TokenSource := { tokens := .plain .begin "begin" :: brokenOffBody }

def brokenOffCalls : List Call :=
  [.enter, .declare (.plain .ident "x") .integer, .enter, .declare (.plain .ident "Y") .logical,
    .declare (.plain .ident "y") .string, .leave, .leave]

open Parse in
/-- The missing tokens are the same one, over and over. -/
theorem parse_brokenOff : brokenOff.parse =
    (.block (.plain .begin "begin")
      (.next (.declare (.plain .typeName "integer") (.plain .ident "x")) (.plain .semi ";")
        (.next (.block (.plain .begin "begin")
          (.next (.declare (.plain .typeName "logical") (.plain .ident "Y")) (.plain .semi ";")
            (.next (.declare (.plain .typeName "string") (.plain .ident "y")) {} .done)) {}) {} .done)) {} {}, []) := by
  -- where the tokens end behind a statement, the inside of a block ends with it
  have hcut {ts : List Token} {s : Stmt} (h : ¬ (nextKind ts = .end ∨ nextKind ts = .eof))
      (hs : (statement {} ts).val = (s, [])) : (body {} ts).val = (.next s {} .done, []) := by
    rw [body_more h (by rw [hs]; nofun), hs]
    show (Code.next s _ (body {} []).val.1, (body {} []).val.2) = _
    rw [body_done (.inr rfl)]
    rfl
  have hlast : (body {} [.plain .typeName "string", .plain .ident "y"]).val = _ :=
    hcut (by decide) (statement_declare rfl)
  have hinside : (body {} brokenOffInside).val = _ := body_next (by decide) (statement_declare rfl) (by decide)
  rw [hlast] at hinside
  have hblock : (statement {} (.plain .begin "begin" :: brokenOffInside)).val = _ := statement_begin rfl
  rw [hinside] at hblock
  have hrest : (body {} (.plain .begin "begin" :: brokenOffInside)).val = _ := hcut (by decide) hblock
  have hbody : (body {} brokenOffBody).val = _ := body_next (by decide) (statement_declare rfl) (by decide)
  have hprogram : brokenOff.parse = _ := @program_block {} (.plain .begin "begin") brokenOffBody rfl
  rw [hprogram, hbody, hrest]
  rfl

/-- Both scopes are closed at the end of the tokens, and the second declaration of the name is not listed. -/
theorem brokenOff_listed :
    let t := lower 4 brokenOff
    t.Asks 4 brokenOff brokenOffCalls ∧ (t.table.retired.map Scope.id).Perm [1, 2] ∧
      [2, 1].Sublist (t.table.retired.map Scope.id) ∧
      t.table.dump = "Scope 0:\nScope 1:\n    LOGICAL y -4\nScope 2:\n    INTEGER x 0\n" := by
  intro t
  have hasks : t.Asks 4 brokenOff brokenOffCalls := by
    refine ⟨?_, ?_⟩
    · show (lower 4 brokenOff).state.session = _
      rw [lower, parse_brokenOff]
      decide +kernel
    · rw [brokenOff.map_plan.1, parse_brokenOff]
      rfl
  obtain ⟨-, -, hall⟩ := scopes_closed_and_listed 4 brokenOff
  obtain ⟨hperm, horder, -, -, hlisted⟩ := hall brokenOffCalls hasks
  refine ⟨hasks, hperm, ?_, ?_⟩
  · exact horder [.enter, .declare (.plain .ident "x") .integer] _ rfl ⟨1, 1, [⟨.plain .ident "x", .integer, 0⟩]⟩
      (by decide +kernel) (by decide)
  · rw [(hlisted (by decide) (by decide +kernel)).2]
    have htable : (lower 4 brokenOff).table = ((Session.fresh 4).run brokenOffCalls).table :=
      congrArg Session.table hasks.session
    rw [htable]
    decide +kernel

end AlgolMips
