import AlgolMips.Proofs.Arena
import AlgolMips.Proofs.Moves
import AlgolMips.Proofs.Plans
import AlgolMips.Translation.Effects

/-!
# Effects follow walks

A translator acts on its work where a lowering walks over a tree. Its actions are the moves of the walk, with the tokens
that it takes in between. An effect follows a walk if, from any work on, it has the value of the walk and acts by its moves
(`Effect.Follows`). Effects and walks are put together in the same way, so each effect follows its walk by its parts.

What an effect leaves of the settings in its actions is whether a fault fails the translation (`Action.Fits`).
-/

namespace AlgolMips

open Gen Mips

/-! ## Actions and moves -/

/-- Something that is seen of how a translator goes through its tokens: a token is taken in place of one of a kind, or found
to be of a wrong kind, a scope is entered or left. Tokens are given as such, or by their kinds. -/
inductive Sight (α : Type) where
  | take (expected : Kind) (found : α)
  | wrong (expected : Kind) (found : α)
  | enter
  | leave
deriving DecidableEq

/-- What is seen where a token is taken in place of one of a kind. -/
def Sight.taking (k : Kind) (tok : Token) : List (Sight Token) :=
  if tok.kind = k then [.take k tok] else [.wrong k tok, .take k tok]

/-- What is seen of a step. -/
def Step.sights : Step Token → List (Sight Token)
  | pass tok => [.take tok.kind tok]
  | take k tok => Sight.taking k tok
  | declare tok => [.take .ident tok]
  | enter => [.enter]
  | leave => [.leave]

namespace Action

/-- What is seen of an action. A token that is passed unasked stands for its own kind. -/
def sight? : Action → Option (Sight Token)
  | take k tok => some (.take (k.getD tok.kind) tok)
  | fail ⟨_, .expected k found⟩ => some (.wrong k found)
  | ask .enter => some .enter
  | ask .leave => some .leave
  | _ => none

/-- The move of a walk that an action makes. -/
def move? : Action → Option Move
  | take _ _ => none
  | produce r => some (.tell (.rule r))
  | note n => some (.tell (.note n))
  | emit l => some (.tell (.line l))
  | record d => some (.tell (.fault d))
  | fail d => some (.tell (.fault d))
  | remark tok r => some (.tell (.remark tok r))
  | become d => some (.become d)
  | label => some .label
  | ask c => some (.ask c)

/-- A fault fails the translation as settings say. -/
def Fits (s : Settings) : Action → Prop
  | record d => d.fault.isFatal s = false
  | fail d => d.fault.isFatal s = true
  | _ => True

end Action

/-- A move as an action can make it: what it is for is forgotten. -/
def Move.plain? : Move → Option Move
  | load _ r d => some (.tell (.line (.instr (.load r d.place.offset))))
  | operate _ _ | hold | release => none
  | x => some x

/-- The state after a move. -/
def GenState.after (g : GenState) : Move → GenState
  | .become d => { g with current := d }
  | .label => { g with labels := g.labels + 1 }
  | .ask c => g.ask c
  | _ => g

theorem Moment.state_run (m : Moment) (moves : List Move) :
    (m.run moves).state = (moves.filterMap Move.plain?).foldl GenState.after m.state := by
  induction moves generalizing m with
  | nil => rfl
  | cons x rest ih =>
    rw [Moment.run_cons, ih]
    cases x <;> rfl

/-- Moves bring a walk from its first state to its last. -/
theorem Gen.Course.state_eq {α : Type} {m : Gen α} (c : Course m) (g : GenState) :
    ((c.moves g).filterMap Move.plain?).foldl GenState.after g = (m g).state := by
  rw [← (c.follows { state := g }).state, Moment.state_run]

namespace Work

variable {s : Settings} {w w' : Work}

/-- The state of a walk that work stands for. -/
def state (w : Work) : GenState := ⟨w.table.frame, w.labels, w.table.stack, w.current⟩

theorem valid_after (h : w.table.Valid) (a : Action) : (w.after s a).table.Valid := by
  cases a with
  | ask c => exact h.perform c
  | _ => exact h

theorem state_after (h : w.table.Valid) (a : Action) :
    (w.after s a).state = a.move?.elim w.state w.state.after := by
  cases a with
  | ask c =>
    have hsession := (h.perform_refines c).2
    show (⟨(w.table.perform c).2.session.frame, w.labels, (w.table.perform c).2.session.table, w.current⟩ : GenState) = _
    rw [hsession]
    rfl
  | _ => rfl

theorem valid_run (h : w.table.Valid) (new : List Action) : (w.run s new).table.Valid := by
  induction new generalizing w with
  | nil => exact h
  | cons a rest ih => exact ih (valid_after h a)

theorem state_run (h : w.table.Valid) (new : List Action) :
    (w.run s new).state = (new.filterMap Action.move?).foldl GenState.after w.state := by
  induction new generalizing w with
  | nil => rfl
  | cons a rest ih =>
    rw [run, ih (valid_after h a), state_after h]
    cases a <;> rfl

theorem run_append (w : Work) (first second : List Action) : w.run s (first ++ second) = (w.run s first).run s second := by
  induction first generalizing w with
  | nil => rfl
  | cons a rest ih => exact ih _

theorem log_run (w : Work) (new : List Action) : (w.run s new).log.toList = w.log.toList ++ new := by
  induction new generalizing w with
  | nil => simp [run]
  | cons a rest ih =>
    rw [run, ih]
    simp [after]

/-- Work goes on by actions that make some moves and let some things be seen. -/
def Carries (s : Settings) (moves : List Move) (sights : List (Sight Token)) (w w' : Work) : Prop :=
  ∃ new, w' = w.run s new ∧ new.filterMap Action.move? = moves.filterMap Move.plain? ∧
    new.filterMap Action.sight? = sights ∧ ∀ a ∈ new, a.Fits s

theorem Carries.refl (s : Settings) (w : Work) : Carries s [] [] w w := ⟨[], rfl, rfl, rfl, by simp⟩

theorem Carries.trans {moves moves' : List Move} {sights sights' : List (Sight Token)} {w'' : Work}
    (h : Carries s moves sights w w') (h' : Carries s moves' sights' w' w'') :
    Carries s (moves ++ moves') (sights ++ sights') w w'' := by
  obtain ⟨first, rfl, hmoves, hsights, hfits⟩ := h
  obtain ⟨second, rfl, hmoves', hsights', hfits'⟩ := h'
  refine ⟨first ++ second, (run_append _ _ _).symm, ?_, ?_, ?_⟩
  · rw [List.filterMap_append, List.filterMap_append, hmoves, hmoves']
  · rw [List.filterMap_append, hsights, hsights']
  · exact List.forall_mem_append.2 ⟨hfits, hfits'⟩

/-- What moves are for makes no difference. -/
theorem Carries.congr {moves moves' : List Move} {sights : List (Sight Token)} (h : Carries s moves sights w w')
    (hplain : moves.filterMap Move.plain? = moves'.filterMap Move.plain?) : Carries s moves' sights w w' := by
  obtain ⟨new, hrun, hmoves, hrest⟩ := h
  exact ⟨new, hrun, hmoves.trans hplain, hrest⟩

theorem carries_after {a : Action} {moves : List Move} (hmove : a.move?.toList = moves.filterMap Move.plain?)
    (hfits : a.Fits s) : Carries s moves a.sight?.toList w (w.after s a) := by
  refine ⟨[a], rfl, ?_, ?_, by simpa using hfits⟩
  · rw [← hmove]
    cases a <;> rfl
  · cases hsight : a.sight? <;> simp [hsight]

theorem Carries.valid {moves : List Move} {sights : List (Sight Token)} (h : Carries s moves sights w w') (hv : w.table.Valid) :
    w'.table.Valid := by
  obtain ⟨new, rfl, -⟩ := h
  exact valid_run hv new

/-- Work that goes on by the moves of a walk comes to the state behind it. -/
theorem Carries.state_eq {α : Type} {m : Gen α} {c : Course m} {sights : List (Sight Token)}
    (h : Carries s (c.moves w.state) sights w w') (hv : w.table.Valid) : w'.state = (m w.state).state := by
  obtain ⟨new, rfl, hmoves, -⟩ := h
  rw [state_run hv, hmoves, c.state_eq]

end Work

/-! ## Effects and walks -/

namespace Effect

variable {α β : Type}

/-- An effect has the value of a walk and acts by its moves, with some things to be seen. -/
structure Follows (e : Effect α) {m : Gen α} (c : Course m) (sights : List (Sight Token) := []) : Prop where
  value : ∀ s w, w.table.Valid → (e s w).1 = (m w.state).value
  carries : ∀ s w, w.table.Valid → Work.Carries s (c.moves w.state) sights w (e s w).2

theorem Follows.bind {e : Effect α} {f : α → Effect β} {m : Gen α} {g : α → Gen β} {c : Course m}
    {d : ∀ a, Course (g a)} {sights sights' : List (Sight Token)} (h : e.Follows c sights)
    (hf : ∀ a, (f a).Follows (d a) sights') : (e >>= f).Follows (.bind c d) (sights ++ sights') where
  value s w hv := by
    have hcarries := h.carries s w hv
    show (f (e s w).1 s (e s w).2).1 = (g (m w.state).value (m w.state).state).value
    rw [← hcarries.state_eq hv, ← h.value s w hv]
    exact (hf _).value s _ (hcarries.valid hv)
  carries s w hv := by
    have hcarries := h.carries s w hv
    refine hcarries.trans ?_
    -- The walk goes on from the state that the work stands for by now, with the value of the effect.
    rw [← hcarries.state_eq hv, ← h.value s w hv]
    exact (hf _).carries s _ (hcarries.valid hv)

theorem Follows.ite {p : Prop} [Decidable p] {e e' : Effect α} {m m' : Gen α} {c : Course m} {c' : Course m'}
    {sights : List (Sight Token)} (h : p → e.Follows c sights) (h' : ¬ p → e'.Follows c' sights) :
    (if p then e else e').Follows (.ite (p := p) c c') sights := by
  by_cases hp : p
  · have hthen := h hp
    constructor <;> intro s w hv <;> simp only [Gen.Course.ite, if_pos hp]
    · exact hthen.value s w hv
    · exact hthen.carries s w hv
  · have helse := h' hp
    constructor <;> intro s w hv <;> simp only [Gen.Course.ite, if_neg hp]
    · exact helse.value s w hv
    · exact helse.carries s w hv

theorem follows_pure (a : α) : (pure a : Effect α).Follows (.pure a) := ⟨fun _ _ _ => rfl, fun s w _ => .refl s w⟩

theorem follows_current : current.Follows .current := ⟨fun _ _ _ => rfl, fun s w _ => .refl s w⟩

theorem follows_resolve (name : Text) : (resolve name).Follows (.resolve name) :=
  ⟨fun _ _ hv => hv.resolve_eq name, fun s w _ => .refl s w⟩

/-- An action follows the walk of its move. -/
theorem follows_act {a : Action} {m : Gen Unit} {c : Course m} (hfits : ∀ s, a.Fits s)
    (hmove : ∀ g, a.move?.toList = (c.moves g).filterMap Move.plain?) : (act a).Follows c a.sight?.toList :=
  ⟨fun _ _ _ => rfl, fun s _ _ => Work.carries_after (hmove _) (hfits s)⟩

theorem follows_produce (r : Rule) : (produce r).Follows (.produce r) := follows_act (fun _ => trivial) fun _ => rfl

theorem follows_note (n : Note) : (note n).Follows (.note n) := follows_act (fun _ => trivial) fun _ => rfl

theorem follows_remark (tok : Token) (r : Remark) : (remark tok r).Follows (.remark tok r) :=
  follows_act (fun _ => trivial) fun _ => rfl

theorem follows_setCurrent (d : Operand) : (setCurrent d).Follows (.setCurrent d) :=
  follows_act (fun _ => trivial) fun _ => rfl

theorem follows_newTemp : newTemp.Follows .newTemp := ⟨fun _ _ _ => rfl, fun _ _ _ => Work.carries_after rfl trivial⟩

theorem follows_newLabel : newLabel.Follows .newLabel := ⟨fun _ _ _ => rfl, fun _ _ _ => Work.carries_after rfl trivial⟩

theorem follows_enterScope : enterScope.Follows .enterScope [.enter] := follows_act (fun _ => trivial) fun _ => rfl

theorem follows_leaveScope : leaveScope.Follows .leaveScope [.leave] := follows_act (fun _ => trivial) fun _ => rfl

theorem follows_declare (tok : Token) (ty : Ty) : (declare tok ty).Follows (.declare tok ty) := by
  refine ⟨fun s w hv => ?_, fun _ _ _ => Work.carries_after rfl trivial⟩
  have hanswer := (hv.perform_refines (.declare tok ty)).1
  show (w.table.declare tok ty).1 = (Gen.declare tok ty w.state).value
  simp only [Arena.perform, Session.perform, Arena.session, Gen.declare, Work.state] at hanswer ⊢
  rcases hfound : w.table.declare tok ty with ⟨found, table⟩
  cases found <;> cases hstack : w.table.stack.declare w.table.frame tok ty <;> simp_all

/-- A fault that is none of a term fails every translation. -/
theorem follows_fail (tok : Token) {f : Fault} (hfatal : ∀ s, f.isFatal s = true) (hsyntactic : f.kind ≠ .syntactic) :
    (fail tok f).Follows (.report tok f) := by
  have hsight : (Action.fail ⟨tok, f⟩).sight? = none := by
    cases f with
    | expected => exact absurd rfl hsyntactic
    | _ => rfl
  have hact : (act (.fail ⟨tok, f⟩)).Follows (.report tok f) (Action.fail ⟨tok, f⟩).sight?.toList :=
    follows_act hfatal fun _ => rfl
  rwa [hsight] at hact

theorem take_of_kind {k : Kind} {tok : Token} (h : tok.kind = k) : take k tok = act (.take (some k) tok) := by
  unfold take
  rw [if_neg (not_not.2 h)]

theorem take_of_ne {k : Kind} {tok : Token} (h : tok.kind ≠ k) :
    take k tok = (do fail tok (.expected k tok); act (.take (some k) tok)) := by
  unfold take
  rw [if_pos h]

/-- A token of a wrong kind is reported before it is taken. -/
theorem follows_take (k : Kind) (tok : Token) : (take k tok).Follows (.expect k tok) (Sight.taking k tok) := by
  refine ⟨fun s w _ => rfl, fun s w _ => ?_⟩
  have hmoves : (Gen.Course.expect k tok).moves w.state =
      if tok.kind = k then [] else [.tell (.fault ⟨tok, .expected k tok⟩)] := rfl
  rw [hmoves]
  by_cases h : tok.kind = k
  · rw [take_of_kind h, Sight.taking, if_pos h, if_pos h]
    exact Work.carries_after rfl trivial
  · rw [take_of_ne h, Sight.taking, if_neg h, if_neg h]
    have hfail : Work.Carries s [.tell (.fault ⟨tok, .expected k tok⟩)] [.wrong k tok] w _ :=
      Work.carries_after (a := .fail ⟨tok, .expected k tok⟩) rfl rfl
    exact hfail.trans (Work.carries_after (a := .take (some k) tok) rfl trivial)

/-- Lines are emitted one by one, whatever they are for. -/
theorem follows_emit {ls : List Line} {m : Gen Unit} {c : Course m}
    (hmoves : ∀ g, (c.moves g).filterMap Move.plain? = ls.map fun l => .tell (.line l)) : (emit ls).Follows c := by
  have hall (s : Settings) (w : Work) : Work.Carries s (ls.map fun l => .tell (.line l)) [] w (emit ls s w).2 := by
    clear hmoves
    induction ls generalizing w with
    | nil => exact .refl s w
    | cons l rest ih =>
      have hfirst : Work.Carries s [.tell (.line l)] [] w (w.after s (.emit l)) := Work.carries_after rfl trivial
      exact hfirst.trans (ih _)
  refine ⟨fun _ _ _ => rfl, fun s w _ => (hall s w).congr ?_⟩
  rw [hmoves, List.filterMap_map]
  simp [Function.comp_def, Move.plain?]

theorem follows_emit_plain (ls : List Line) : (emit ls).Follows (.emit ls) :=
  follows_emit fun _ => by
    simp [Gen.Course.emit, Gen.Course.tell, Gen.Course.tellBy, List.filterMap_map, Function.comp_def, Move.plain?]

theorem follows_emitOn (ls : List Line) (purpose : Purpose) (d : Operand) :
    (emit ls).Follows (@Gen.Course.emitOn ls purpose d) :=
  follows_emit fun _ => by
    have hplain (l : Line) : (Move.ofLine purpose d l).plain? = some (.tell (.line l)) := by
      unfold Move.ofLine
      split
      · split <;> simp_all [Move.plain?]
      · rfl
    simp [Gen.Course.emitOn, Gen.Course.tellBy, List.filterMap_map, hplain]

/-! ### Expressions -/

theorem follows_binary (comment : Text) (left right : Operand) (code : List Instr) (result : Ty) :
    (binary comment left right code result).Follows (.binary comment left right code result) := by
  refine .bind (follows_emit fun _ => ?_) fun _ => follows_newTemp.bind fun slot =>
    (follows_emit_plain _).bind fun _ => follows_setCurrent _
  simp [Gen.Course.tellBy, List.filterMap_cons, List.filterMap_map, Function.comp_def, Move.plain?]

theorem follows_add (op : Token) (left : Operand) :
    (add op left).Follows (.bind .current fun right => .add op left right) :=
  follows_current.bind fun _ => .ite (fun _ => follows_binary ..) fun _ => follows_fail op (fun _ => rfl) nofun

/-- The one place where a fault may be recorded only. -/
theorem follows_mul (op : Token) (left : Operand) :
    (mul op left).Follows (.bind .current fun right => .mul op left right) := by
  refine follows_current.bind fun right => .ite (fun _ => follows_binary ..) fun _ => ?_
  have hrun (s : Settings) (w : Work) : (feature .strictTerm >>= fun strict =>
      if strict then fail op (.multiplication op.value left.ty right.ty)
      else record op (.multiplication op.value left.ty right.ty)) s w =
      ((), w.after s (if s.feature .strictTerm then .fail ⟨op, .multiplication op.value left.ty right.ty⟩
        else .record ⟨op, .multiplication op.value left.ty right.ty⟩)) := by
    show (if s.feature .strictTerm then _ else _ : Effect Unit) s w = _
    split <;> rfl
  refine ⟨fun _ _ _ => rfl, fun s w _ => ?_⟩
  rw [hrun]
  split
  · next hstrict => exact Work.carries_after rfl hstrict
  · next hlax => exact Work.carries_after rfl (Bool.eq_false_iff.2 hlax)

theorem follows_compare (op : Token) (left : Operand) :
    (compare op left).Follows (.bind .current fun right => .compare op left right) :=
  follows_current.bind fun _ => .ite (fun _ => follows_setCurrent left) fun _ =>
    .ite (fun _ => follows_fail op (fun _ => rfl) nofun) fun _ => follows_binary ..

theorem follows_negate (op : Token) : (negate op).Follows (.bind .current fun d => .negate op d) :=
  follows_current.bind fun _ => .ite (fun _ => follows_fail op (fun _ => rfl) nofun) fun _ => follows_emitOn ..

theorem follows_literal (lexeme : Text) : (literal lexeme).Follows (.literal lexeme) :=
  .ite (fun _ => follows_newLabel.bind fun _ => (follows_emit_plain _).bind fun _ => follows_setCurrent _) fun _ =>
    follows_newTemp.bind fun _ => (follows_emit_plain _).bind fun _ => follows_setCurrent _

theorem follows_reference (tok : Token) : (do produce .reference; name tok).Follows (.reference tok) := by
  refine (follows_produce _).bind fun _ => (follows_resolve _).bind fun found => ?_
  cases found with
  | ok v => exact (follows_setCurrent _).bind fun _ => follows_pure true
  | error e => exact (follows_fail tok (fun _ => rfl) (by cases e <;> nofun)).bind fun _ => follows_pure false

/-! ### Statements -/

/-- What follows the walk with the binding that is hidden. -/
theorem Follows.shadowed {name : Text} {f : Option Variable → Effect β} {g : GenState → Gen β} {d : ∀ a, Course (g a)}
    (h : ∀ state, (f (state.table.shadowed? name)).Follows (d state)) : (shadowed? name >>= f).Follows (.bind .get d) := by
  have hfound (w : Work) (hv : w.table.Valid) : w.table.shadowed? name = w.state.table.shadowed? name :=
    hv.shadowed?_eq name
  constructor <;> intro s w hv
  · have hrest := (h w.state).value s w hv
    rw [← hfound w hv] at hrest
    exact hrest
  · have hrest := (h w.state).carries s w hv
    rw [← hfound w hv] at hrest
    exact hrest

theorem follows_declared (type name : Token) :
    (do reportUnbound name (← declare name (Ty.ofKeyword type.value))).Follows
      (Gen.Course.declaration.declared type name) := by
  refine (follows_declare ..).bind fun found => ?_
  cases found with
  | ok v => exact follows_pure ()
  | error e => exact follows_fail name (fun _ => rfl) (by cases e <;> nofun)

theorem follows_storeIn (target : Token) (v : Variable) : (storeIn target v).Follows (.storeIn target v) :=
  follows_current.bind fun _ => .ite (fun _ => follows_emitOn ..) fun _ => follows_fail target (fun _ => rfl) nofun

theorem follows_expectCondition (tok : Token) (g : Guarded) : (expectCondition tok g).Follows (.expectCondition tok g) :=
  follows_current.bind fun _ => .ite (fun _ => follows_pure ()) fun _ => follows_fail tok (fun _ => rfl) nofun

theorem follows_readCurrent (keyword : Token) : (readCurrent keyword).Follows (.readCurrent keyword) :=
  follows_current.bind fun _ => .ite (fun _ => (follows_note _).bind fun _ => follows_emit_plain _) fun _ =>
    follows_fail keyword (fun _ => rfl) nofun

end Effect

end AlgolMips
