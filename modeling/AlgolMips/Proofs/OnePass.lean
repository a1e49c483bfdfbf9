import AlgolMips.Proofs.Effects
import AlgolMips.Proofs.Records
import AlgolMips.Translation

/-!
# One pass does what two passes do

A translation takes tokens, works on the symbol table and emits code as it goes. The same is had by reading a tree from the
tokens first and lowering the tree afterwards: a production takes the tokens of the tree that would be read, whatever the
names, the types and the settings are, and acts by the moves of the walk over that tree (`Translator.Goes`).
-/

namespace AlgolMips

open Gen Mips Parse

namespace Translator

variable {s : Settings} {t t₁ t₂ : Translator} {eof : Token}

/-! ## Going through tokens -/

theorem kind_eq (t : Translator) : t.kind = Parse.nextKind t.source.tokens := by
  obtain ⟨⟨tokens, file, line, column⟩, w⟩ := t
  cases tokens <;> rfl

@[simp] theorem kind_does (t : Translator) (e : Effect Unit) : (t.does s e).kind = t.kind := rfl

theorem kind_current_of_cons {k : Kind} {tok : Token} {ts : List Token} (h : t.source.tokens = tok :: ts) (hk : tok.kind = k) :
    t.kind = k ∧ t.current = tok := by
  have hcurrent : t.current = tok := by rw [current, h]; rfl
  exact ⟨by rw [kind, hcurrent, hk], hcurrent⟩

/-- A translator goes through tokens and leaves some: it takes steps, acts by the moves of a walk, and has its value. -/
structure Goes (s : Settings) {α : Type} {m : Gen α} (c : Course m) (steps : List (Step Token)) (t : Translator)
    (rest : List Token) (a : α) (t' : Translator) : Prop where
  source : t'.source = { t.source with tokens := rest }
  value : t.work.table.Valid → a = (m t.work.state).value
  carries : t.work.table.Valid → Work.Carries s (c.moves t.work.state) (steps.flatMap Step.sights) t.work t'.work

section

variable {α β : Type} {m : Gen α} {g : α → Gen β} {c : Course m} {d : ∀ a, Course (g a)} {steps steps' : List (Step Token)}
  {mid rest : List Token} {a : α} {b : β}

theorem Goes.tokens_eq (h : Goes s c steps t rest a t₁) : t₁.source.tokens = rest := by rw [h.source]

theorem Goes.eof_eq (h : Goes s c steps t rest a t₁) : t₁.source.eof = t.source.eof := by
  rw [h.source]
  rfl

theorem Goes.kind_eq (h : Goes s c steps t rest a t₁) : t₁.kind = Parse.nextKind rest := by
  rw [Translator.kind_eq, h.tokens_eq]

theorem Goes.current_eq (h : Goes s c steps t rest a t₁) : t₁.current = rest.headD t.source.eof := by
  rw [current, h.tokens_eq, h.eof_eq]

theorem Goes.bind (h : Goes s c steps t mid a t₁) (h' : Goes s (d a) steps' t₁ rest b t₂) :
    Goes s (.bind c d) (steps ++ steps') t rest b t₂ where
  source := by rw [h'.source, h.source]
  value hv := by
    have hcarries := h.carries hv
    rw [h'.value (hcarries.valid hv), hcarries.state_eq hv, h.value hv]
    rfl
  carries hv := by
    have hcarries := h.carries hv
    rw [List.flatMap_append]
    refine hcarries.trans ?_
    rw [← hcarries.state_eq hv, ← h.value hv]
    exact h'.carries (hcarries.valid hv)

/-- One thing after another, the value of the first not being used. -/
theorem Goes.andThen {n : Gen β} {c' : Course n} (h : Goes s c steps t mid a t₁) (h' : Goes s c' steps' t₁ rest b t₂) :
    Goes s (.bind c fun _ => c') (steps ++ steps') t rest b t₂ := h.bind (d := fun _ => c') h'

theorem goes_asks {e : Effect α} (h : e.Follows c) : Goes s c [] t t.source.tokens (t.asks s e).1 (t.asks s e).2 :=
  ⟨rfl, h.value s t.work, h.carries s t.work⟩

/-- The current operand is kept. -/
theorem Goes.holding {f : Operand → Gen β} {c : ∀ d, Course (f d)} (h : Goes s (c t.work.current) steps t rest b t₁) :
    Goes s (.holding c) steps t rest b t₁ where
  source := h.source
  value := h.value
  carries hv := by
    have hmoves : (Gen.Course.holding c).moves t.work.state =
        .hold :: ((c t.work.current).moves t.work.state ++ [.release]) := rfl
    refine (h.carries hv).congr ?_
    rw [hmoves]
    simp [List.filterMap_cons, Move.plain?]

end

section

variable {α : Type} {m n : Gen Unit} {c : Course m} {d : Unit → Course n} {e : Effect Unit} {steps : List (Step Token)}
  {rest : List Token}

theorem goes_does (h : e.Follows c) : Goes s c [] t t.source.tokens () (t.does s e) :=
  ⟨rfl, fun _ => rfl, h.carries s t.work⟩

/-- Something is done behind the last token. -/
theorem Goes.does (h : Goes s c steps t rest () t₁) (he : e.Follows (d ())) :
    Goes s (.bind c d) steps t rest () (t₁.does s e) := by
  have hboth := h.bind (d := d) (goes_does (t := t₁) he)
  rwa [List.append_nil, h.tokens_eq] at hboth

/-- The current token is taken in place of one of a kind. -/
theorem goes_expect (k : Kind) : Goes s (.expect k t.current) [.take k t.current] t t.source.tokens.tail () (t.expect s k) where
  source := rfl
  value _ := rfl
  carries hv := by
    rw [List.flatMap_singleton]
    exact (Effect.follows_take k t.current).carries s t.work hv

/-- Behind some tokens the next one is taken in place of one of a kind. -/
theorem Goes.expects (h : Goes s c steps t rest () t₁) (k : Kind) :
    Goes s (.bind c fun _ => .expect k (rest.headD t.source.eof)) (steps ++ [.take k (rest.headD t.source.eof)]) t rest.tail ()
      (t₁.expect s k) := by
  have hexpect := goes_expect (s := s) (t := t₁) k
  rw [h.current_eq, h.tokens_eq] at hexpect
  exact h.bind (d := fun _ => .expect k (rest.headD t.source.eof)) hexpect

/-- The value is not used. -/
theorem Goes.ends {n : Gen α} {c : Course n} {a : α} (h : Goes s c steps t rest a t₁) :
    Goes s (.bind c fun _ => .pure ()) steps t rest () t₁ where
  source := h.source
  value _ := rfl
  carries hv := by
    have hmoves : (Gen.Course.bind c fun _ => .pure ()).moves t.work.state = c.moves t.work.state ++ [] := rfl
    rw [hmoves, List.append_nil]
    exact h.carries hv

/-- A token is passed for its own kind. -/
theorem Goes.after {n : Gen α} {c : Course n} {k : Option Kind} {a : α} (hk : k.getD t.kind = t.kind)
    (h : Goes s c steps (t.passing s (.act (.take k t.current))) rest a t₁) :
    Goes s c (.pass t.current :: steps) t rest a t₁ where
  source := h.source
  value := h.value
  carries hv := by
    have hsight : (Action.take k t.current).sight?.toList = (Step.pass t.current).sights := by
      simp only [Action.sight?, Step.sights]
      rw [show k.getD t.current.kind = t.current.kind from hk]
      rfl
    have hfirst : Work.Carries s [] _ t.work (t.work.after s (.take k t.current)) := Work.carries_after rfl trivial
    rw [hsight] at hfirst
    exact hfirst.trans (h.carries hv)

theorem expect_of_kind {k : Kind} (hk : t.kind = k) : t.expect s k = t.passing s (.act (.take (some k) t.current)) :=
  congrArg (t.passing s) (Effect.take_of_kind hk)

/-- A token of the right kind is passed. -/
theorem Goes.pass {n : Gen α} {c : Course n} {k : Kind} {a : α} (hk : t.kind = k) (h : Goes s c steps (t.expect s k) rest a t₁) :
    Goes s c (.pass t.current :: steps) t rest a t₁ := by
  subst hk
  rw [expect_of_kind rfl] at h
  exact h.after rfl

/-- The right operand behind an operator, and what is done with both operands. -/
theorem Goes.operator {left right : Gen Unit} {cl : Course left} {cr : Course right} {x : Operand → Operand → Gen Unit}
    {cx : ∀ l r, Course (x l r)} {k : Kind} {op : Token} {more : List (Step Token)} {ts : List Token}
    (h : Goes s cl steps t (op :: ts) () t₁) (hk : op.kind = k) (hright : Goes s cr more (t₁.expect s k) rest () t₂)
    (he : e.Follows (.bind .current fun r => cx t₁.work.current r)) :
    Goes s (.bind cl fun _ => .holding fun l => .bind cr fun _ => .bind .current fun r => cx l r)
      (steps ++ .pass op :: more) t rest () (t₂.does s e) := by
  have hop : t₁.current = op := h.current_eq
  have hrest := (hright.does (d := fun _ => .bind .current fun r => cx t₁.work.current r) he).pass (by rw [kind, hop, hk])
  rw [hop] at hrest
  exact h.bind hrest.holding

/-- A token of the right kind is passed in the end. -/
theorem Goes.passes {n : Gen α} {c : Course n} {k : Kind} {a : α} (h : Goes s c steps t rest a t₁) (hk : t₁.kind = k) :
    Goes s c (steps ++ [.pass t₁.current]) t rest.tail a (t₁.expect s k) where
  source := by
    show ({ t₁.source with tokens := t₁.source.tokens.tail } : TokenSource) = _
    rw [h.source]
  value := h.value
  carries hv := by
    have hlast : Work.Carries s [] _ t₁.work (t₁.work.after s (.take (some k) t₁.current)) :=
      Work.carries_after rfl trivial
    have hboth := (h.carries hv).trans hlast
    rw [List.append_nil] at hboth
    rw [List.flatMap_append, expect_of_kind hk]
    have hsight : (Action.take (some k) t₁.current).sight?.toList = [Step.pass t₁.current].flatMap Step.sights := by
      subst hk
      rfl
    rw [← hsight]
    exact hboth

/-- The current token is passed as it is. -/
theorem Goes.passed {n : Gen α} {c : Course n} {a : α} (h : Goes s c steps (t.advance s) rest a t₁) :
    Goes s c (.pass t.current :: steps) t rest a t₁ := h.after rfl

end

/-! ## Equations of the productions -/

theorem expression_val (t : Translator) : (expression s t).val =
    (expressionTail s (term s (t.does s (.produce .expression))).val).val := by
  rw [expression]

theorem expressionTail_stop (h : t.kind ≠ .addOp) : (expressionTail s t).val = t := by
  rw [expressionTail, dif_neg h]

theorem expressionTail_step (h : t.kind = .addOp) : (expressionTail s t).val =
    (expressionTail s ((term s (t.expect s .addOp)).val.does s (.add t.current t.work.current))).val := by
  rw [expressionTail, dif_pos h]

theorem term_val (t : Translator) : (term s t).val = (termTail s (relation s (t.does s (.produce .term))).val).val := by
  rw [term]

theorem termTail_stop (h : t.kind ≠ .mulOp) : (termTail s t).val = t := by
  rw [termTail, dif_neg h]

theorem termTail_step (h : t.kind = .mulOp) : (termTail s t).val =
    (termTail s ((relation s (t.expect s .mulOp)).val.does s (.mul t.current t.work.current))).val := by
  rw [termTail, dif_pos h]

theorem relation_stop (h : (factor s (t.does s (.produce .relation))).val.kind ≠ .relOp) :
    (relation s t).val = (factor s (t.does s (.produce .relation))).val := by
  rw [relation]
  dsimp only
  rw [dif_neg h]

theorem relation_step (hf : (factor s (t.does s (.produce .relation))).val = t₁) (h : t₁.kind = .relOp) :
    (relation s t).val = (factor s (t₁.expect s .relOp)).val.does s (.compare t₁.current t₁.work.current) := by
  subst hf
  rw [relation]
  dsimp only
  rw [dif_pos h]

theorem factor_name (h : t.kind = .ident) : (factor s t).val = ((t.does s (.produce .factor)).reference s).2 := by
  rw [factor]
  split <;> simp_all

theorem factor_literal (h : t.kind = .literal) :
    (factor s t).val = ((t.does s (.produce .factor)).does s (.literal t.current.value)).expect s .literal := by
  rw [factor]
  split <;> simp_all

theorem factor_not (h : t.kind = .not) :
    (factor s t).val = (factor s ((t.does s (.produce .factor)).expect s .not)).val.does s (.negate t.current) := by
  rw [factor]
  split <;> simp_all

theorem factor_lparen (h : t.kind = .lparen) :
    (factor s t).val = (expression s ((t.does s (.produce .factor)).expect s .lparen)).val.expect s .rparen := by
  rw [factor]
  split <;> simp_all

theorem factor_missing (h : t.kind ∉ Level.factor.continuations) : (factor s t).val = t.does s (.produce .factor) := by
  rw [factor]
  simp only [Level.continuations, factorKinds] at h
  split <;> simp_all

/-! ## Expressions -/

theorem goes_reference (hk : t.kind = .ident) :
    Goes s (.reference t.current) [.pass t.current] t t.source.tokens.tail (t.reference s).1 (t.reference s).2 := by
  have hnamed := goes_asks (s := s) (t := t) (Effect.follows_reference t.current)
  have hreference : t.reference s = ((t.asks s (do .produce .reference; .name t.current)).1,
      (t.asks s (do .produce .reference; .name t.current)).2.expect s .ident) := by
    unfold reference
    dsimp only
    rw [if_pos hk]
    rfl
  rw [hreference]
  exact hnamed.passes hk

section

variable (s : Settings) (eof : Token)

/-- An expression is gone through as the tree says that is read from the tokens. -/
def GoesBy {l : Level} (parsed : Expr l × List Token) (t t' : Translator) : Prop :=
  Goes s parsed.1.course parsed.1.steps t parsed.2 () t'

variable {s eof}

theorem goes_expressionTail_stop {left : Expr .expression} {ts : List Token} {t₀ t : Translator} (hk : nextKind ts ≠ .addOp)
    (h : GoesBy s (left, ts) t₀ t) : GoesBy s (Parse.expressionTail eof left ts).val t₀ (expressionTail s t).val := by
  rw [Parse.expressionTail_stop hk, expressionTail_stop (h.kind_eq.trans_ne hk)]
  exact h

theorem goes_termTail_stop {left : Expr .term} {ts : List Token} {t₀ t : Translator} (hk : nextKind ts ≠ .mulOp)
    (h : GoesBy s (left, ts) t₀ t) : GoesBy s (Parse.termTail eof left ts).val t₀ (termTail s t).val := by
  rw [Parse.termTail_stop hk, termTail_stop (h.kind_eq.trans_ne hk)]
  exact h

theorem goes_relation_stop {left : Expr .factor} {ts behind : List Token} (hl : (Parse.factor eof ts).val = (left, behind))
    (hk : nextKind behind ≠ .relOp)
    (hleft : GoesBy s (Parse.factor eof ts).val (t.does s (.produce .relation)) (factor s (t.does s (.produce .relation))).val) :
    GoesBy s (Parse.relation eof ts).val t (relation s t).val := by
  rw [hl] at hleft
  rw [Parse.relation_stop hl hk, relation_stop (hleft.kind_eq.trans_ne hk)]
  exact (goes_does (Effect.follows_produce _)).bind hleft

theorem goes_relation_step {left : Expr .factor} {op : Token} {ts rest : List Token}
    (hl : (Parse.factor eof ts).val = (left, op :: rest)) (hk : op.kind = .relOp)
    (hleft : GoesBy s (Parse.factor eof ts).val (t.does s (.produce .relation)) (factor s (t.does s (.produce .relation))).val)
    (hright : ∀ t₁ : Translator, t₁.source.eof = t.source.eof → t₁.source.tokens = rest →
      GoesBy s (Parse.factor eof rest).val t₁ (factor s t₁).val) :
    GoesBy s (Parse.relation eof ts).val t (relation s t).val := by
  rw [hl] at hleft
  generalize hfirst : (factor s (t.does s (.produce .relation))).val = t₁ at hleft
  have hop : t₁.current = op := hleft.current_eq
  rw [Parse.relation_step hl hk, relation_step hfirst (hleft.kind_eq.trans hk), hop]
  refine (goes_does (Effect.follows_produce _)).bind (hleft.operator hk (hright _ hleft.eof_eq ?_) (Effect.follows_compare op _))
  exact congrArg List.tail hleft.tokens_eq

theorem goes_factor_missing {ts : List Token} (hts : t.source.tokens = ts) (hk : nextKind ts ∉ Level.factor.continuations) :
    GoesBy s (Parse.factor eof ts).val t (factor s t).val := by
  subst hts
  rw [Parse.factor_missing hk, factor_missing (t.kind_eq ▸ hk)]
  exact goes_does (Effect.follows_produce _)

variable (s eof)

/-- By induction along the way in which the tree is read. What is gone on with was gone through before. -/
theorem goes_expression :
    (∀ ts t, t.source.eof = eof → t.source.tokens = ts →
      GoesBy s (Parse.expression eof ts).val t (expression s t).val) ∧
    (∀ left ts t₀ t, t₀.source.eof = eof → GoesBy s (left, ts) t₀ t →
      GoesBy s (Parse.expressionTail eof left ts).val t₀ (expressionTail s t).val) ∧
    (∀ ts t, t.source.eof = eof → t.source.tokens = ts → GoesBy s (Parse.term eof ts).val t (term s t).val) ∧
    (∀ left ts t₀ t, t₀.source.eof = eof → GoesBy s (left, ts) t₀ t →
      GoesBy s (Parse.termTail eof left ts).val t₀ (termTail s t).val) ∧
    (∀ ts t, t.source.eof = eof → t.source.tokens = ts → GoesBy s (Parse.relation eof ts).val t (relation s t).val) ∧
    (∀ ts t, t.source.eof = eof → t.source.tokens = ts → GoesBy s (Parse.factor eof ts).val t (factor s t).val) := by
  apply Parse.expression.mutual_induct eof
  -- an expression, and behind its first term: nothing, a further operator, another token
  · intro ts
    dsimp only
    intro ihTerm ihTail _ t heof hts
    rw [Parse.expression_val, expression_val]
    exact ihTail t _ heof ((goes_does (Effect.follows_produce _)).bind (ihTerm _ heof hts))
  · intro left t₀ t _ h
    exact goes_expressionTail_stop (show nextKind [] ≠ .addOp by decide) h
  · intro left op ts hk
    dsimp only
    intro ihTerm ihTail _ t₀ t heof h
    rw [Parse.expressionTail_step hk, expressionTail_step (h.kind_eq.trans hk), h.current_eq]
    have htail : (t.expect s .addOp).source.tokens = ts := congrArg List.tail h.tokens_eq
    exact ihTail t₀ _ heof (h.operator hk (ihTerm _ (h.eof_eq.trans heof) htail) (Effect.follows_add op _))
  · intro left op ts hk t₀ t _ h
    exact goes_expressionTail_stop (show nextKind (op :: ts) ≠ .addOp from hk) h
  -- a term, and behind its first relation the same
  · intro ts
    dsimp only
    intro ihRelation ihTail _ t heof hts
    rw [Parse.term_val, term_val]
    exact ihTail t _ heof ((goes_does (Effect.follows_produce _)).bind (ihRelation _ heof hts))
  · intro left t₀ t _ h
    exact goes_termTail_stop (show nextKind [] ≠ .mulOp by decide) h
  · intro left op ts hk
    dsimp only
    intro ihRelation ihTail _ t₀ t heof h
    rw [Parse.termTail_step hk, termTail_step (h.kind_eq.trans hk), h.current_eq]
    have htail : (t.expect s .mulOp).source.tokens = ts := congrArg List.tail h.tokens_eq
    exact ihTail t₀ _ heof (h.operator hk (ihRelation _ (h.eof_eq.trans heof) htail) (Effect.follows_mul op _))
  · intro left op ts hk t₀ t _ h
    exact goes_termTail_stop (show nextKind (op :: ts) ≠ .mulOp from hk) h
  -- a relation, behind whose first factor there is nothing, an operator or another token
  · intro ts left hrest ihFactor t heof hts
    have hl : (Parse.factor eof ts).val = (left.val.1, []) := Prod.ext rfl hrest
    exact goes_relation_stop hl (by decide) (ihFactor _ heof hts)
  · intro ts left op rest hrest hk ihLeft ihRight t heof hts
    exact goes_relation_step (Prod.ext rfl hrest) hk (ihLeft _ heof hts) fun t₁ heof₁ => ihRight t₁ (heof₁.trans heof)
  · intro ts left op rest hrest hk ihFactor t heof hts
    have hl : (Parse.factor eof ts).val = (left.val.1, op :: rest) := Prod.ext rfl hrest
    exact goes_relation_stop hl hk (ihFactor _ heof hts)
  -- a factor: no token, a name, a literal, an inversion, parentheses, another token
  · intro t _ hts
    exact goes_factor_missing hts (by simp [nextKind, Level.continuations, factorKinds])
  · intro tok ts hk t _ hts
    obtain ⟨hkind, rfl⟩ := kind_current_of_cons hts hk
    have hname := (goes_reference (s := s) (t := t.does s (.produce .factor)) hkind).ends
    rw [show (t.does s (.produce .factor)).source.tokens = _ from hts] at hname
    rw [Parse.factor_name hk, factor_name hkind]
    exact (goes_does (Effect.follows_produce .factor)).bind hname
  · intro tok ts hk t _ hts
    obtain ⟨hkind, rfl⟩ := kind_current_of_cons hts hk
    have hliteral := (goes_does (s := s) (t := t) (Effect.follows_produce .factor)).does
      (d := fun _ => .literal t.current.value) (Effect.follows_literal _)
    rw [hts] at hliteral
    rw [Parse.factor_literal hk, factor_literal hkind]
    exact hliteral.passes hkind
  · intro tok ts hk ih t heof hts
    obtain ⟨hkind, rfl⟩ := kind_current_of_cons hts hk
    have hinner := ih ((t.does s (.produce .factor)).expect s .not) heof (congrArg List.tail hts)
    rw [Parse.factor_not hk, factor_not hkind]
    exact (goes_does (Effect.follows_produce .factor)).bind
      (.pass (t := t.does s (.produce .factor)) hkind (hinner.does (Effect.follows_negate _)))
  · intro tok ts hk ih t heof hts
    obtain ⟨hkind, rfl⟩ := kind_current_of_cons hts hk
    have hinner := (ih ((t.does s (.produce .factor)).expect s .lparen) heof (congrArg List.tail hts)).expects .rparen
    rw [show ((t.does s (.produce .factor)).expect s .lparen).source.eof = eof from heof] at hinner
    rw [Parse.factor_lparen hk, factor_lparen hkind]
    exact (goes_does (Effect.follows_produce .factor)).bind (.pass (t := t.does s (.produce .factor)) hkind hinner)
  · intro tok ts h₁ h₂ h₃ h₄ t _ hts
    refine goes_factor_missing hts ?_
    simp only [nextKind, Level.continuations, factorKinds, List.mem_cons, List.not_mem_nil, or_false, not_or]
    exact ⟨h₁, h₂, h₃, h₄⟩

end

/-! ## Statements -/

theorem Goes.congr {α : Type} {m : Gen α} {c : Course m} {steps steps' : List (Step Token)} {rest : List Token} {a : α}
    (h : Goes s c steps t rest a t₁) (hsights : steps.flatMap Step.sights = steps'.flatMap Step.sights) :
    Goes s c steps' t rest a t₁ :=
  ⟨h.source, h.value, hsights ▸ h.carries⟩

theorem Goes.ite {α : Type} {p : Prop} [Decidable p] {m m' : Gen α} {c : Course m} {c' : Course m'}
    {steps : List (Step Token)} {rest : List Token} {a : α} (h : p → Goes s c steps t rest a t₁)
    (h' : ¬ p → Goes s c' steps t rest a t₁) : Goes s (.ite (p := p) c c') steps t rest a t₁ := by
  by_cases hp : p
  · have hthen := h hp
    refine ⟨hthen.source, fun hv => ?_, fun hv => ?_⟩
    · rw [if_pos hp]
      exact hthen.value hv
    · simp only [Gen.Course.ite, if_pos hp]
      exact hthen.carries hv
  · have helse := h' hp
    refine ⟨helse.source, fun hv => ?_, fun hv => ?_⟩
    · rw [if_neg hp]
      exact helse.value hv
    · simp only [Gen.Course.ite, if_neg hp]
      exact helse.carries hv

/-- A statement is entered. -/
theorem goes_enter (n : Note) :
    Goes s (.enter n) [] t t.source.tokens () ((t.does s (.produce .statement)).does s (.note n)) :=
  (goes_does (Effect.follows_produce _)).does (Effect.follows_note n)

theorem goes_expect_of {k : Kind} {ts : List Token} (heof : t.source.eof = eof) (hts : t.source.tokens = ts) :
    Goes s (.expect k (ts.headD eof)) [.take k (ts.headD eof)] t ts.tail () (t.expect s k) := by
  subst heof hts
  exact goes_expect k

theorem goes_declaration {type : Token} {ts : List Token} (heof : t.source.eof = eof) (hts : t.source.tokens = type :: ts)
    (hk : type.kind = .typeName) :
    Goes s (.declaration type (ts.headD eof))
      [.pass type, if (ts.headD eof).kind = .ident then .declare (ts.headD eof) else .take .ident (ts.headD eof)] t ts.tail ()
      (t.declaration s) := by
  obtain ⟨hkind, rfl⟩ := kind_current_of_cons hts hk
  have hname : Goes s (.expect .ident (ts.headD eof)) _ ((t.does s (.produce .declaration)).expect s .typeName) ts.tail () _ :=
    goes_expect_of heof (congrArg List.tail hts)
  have hcurrent : ((t.does s (.produce .declaration)).expect s .typeName).current = ts.headD eof := by
    subst heof
    exact congrArg (fun l => l.tail.headD t.source.eof) hts
  have hval : t.declaration s = (((t.does s (.produce .declaration)).expect s .typeName).expect s .ident).does s
      (if (ts.headD eof).kind = .ident then .bindName (ts.headD eof) (Ty.ofKeyword t.current.value) else pure ()) := by
    unfold declaration
    dsimp only
    rw [hcurrent]
    split <;> rfl
  rw [hval]
  refine Goes.congr ((goes_does (Effect.follows_produce _)).bind
    (.pass (t := t.does s (.produce .declaration)) hkind (hname.does ?_))) ?_
  · refine .ite (fun _ => .shadowed fun state => ?_) fun _ => Effect.follows_pure ()
    generalize state.table.shadowed? (ts.headD eof).value = hidden
    cases hidden with
    | none => exact Effect.follows_declared ..
    | some previous => exact (Effect.follows_remark ..).bind fun _ => Effect.follows_declared ..
  -- A token that is no name is seen to be of a wrong kind, which the step for it says as well.
  · by_cases hident : (ts.headD eof).kind = .ident
    · have htaking : Sight.taking .ident (ts.headD eof) = [.take .ident (ts.headD eof)] := if_pos hident
      rw [if_pos hident]
      simp only [List.nil_append, List.flatMap_cons, List.flatMap_nil, Step.sights, htaking]
      rfl
    · rw [if_neg hident]
      rfl

/-- A name is resolved, and what follows may depend on it. -/
theorem Goes.resolving {β : Type} {name : Text} {g : Except NameError Variable → Gen β} {d : ∀ found, Course (g found)}
    {steps : List (Step Token)} {rest : List Token} {b : β} (h : Goes s (d (t.work.table.resolve name)) steps t rest b t₁) :
    Goes s (.bind (.resolve name) d) steps t rest b t₁ :=
  (goes_asks (Effect.follows_resolve name)).bind h

/-- Both ways through an assignment take the same tokens. -/
theorem goes_assignment {target : Token} {ts rest : List Token} {value : Gen Unit} {c : Course value}
    {steps : List (Step Token)} (heof : t.source.eof = eof) (hts : t.source.tokens = target :: ts) (hk : target.kind = .ident)
    (hvalue : ∀ t₁ : Translator, t₁.source.eof = eof → t₁.source.tokens = ts.tail →
      Goes s c steps t₁ rest () (expression s t₁).val) :
    Goes s (.assignment target (ts.headD eof) c) (.pass target :: .take .assign (ts.headD eof) :: steps) t rest ()
      (t.assignment s) := by
  obtain ⟨hkind, rfl⟩ := kind_current_of_cons hts hk
  unfold assignment
  dsimp only
  refine (goes_does (Effect.follows_produce _)).bind (.resolving ?_)
  -- An undeclared target is passed as it is, a declared one as the name that it is.
  cases (t.does s (.produce .assignment)).work.table.resolve t.current.value with
  | error e =>
    have hreport := goes_does (s := s) (t := t.does s (.produce .assignment))
      (Effect.follows_fail t.current (f := .name e) (fun _ => rfl) (by cases e <;> nofun))
    have hsign := goes_expect_of (s := s) (k := .assign)
      (t := ((t.does s (.produce .assignment)).does s (.fail t.current (.name e))).advance s) heof (congrArg List.tail hts)
    have hrest := hsign.andThen (hvalue _ (hsign.eof_eq.trans heof) hsign.tokens_eq)
    exact hreport.andThen hrest.passed
  | ok v =>
    have htarget := goes_reference (s := s) (t := t.does s (.produce .assignment)) hkind
    have hsign := goes_expect_of (s := s) (k := .assign) (htarget.eof_eq.trans heof)
      (htarget.tokens_eq.trans (congrArg List.tail hts))
    have hafter := hvalue _ (hsign.eof_eq.trans (htarget.eof_eq.trans heof)) hsign.tokens_eq
    exact htarget.andThen (hsign.andThen (hafter.does (Effect.follows_storeIn t.current v)))

theorem conditional_val (h : t.kind = .if) : (conditional s t h).val =
    (statement s (t.conditionalHead s).2).val.does s (.emit [.label (t.conditionalHead s).1]) := by
  rw [conditional]

theorem loop_val (h : t.kind = .while) : (loop s t h).val =
    (statement s (t.loopHead s).2).val.does s (.emit [.instr (.jump (t.loopHead s).1.1), .label (t.loopHead s).1.2]) := by
  rw [loop]

theorem goes_conditional {opening : Token} {ts mid rest : List Token} {condition action : Gen Unit} {cc : Course condition}
    {ca : Course action} {steps more : List (Step Token)} (heof : t.source.eof = eof)
    (hts : t.source.tokens = opening :: ts) (hk : opening.kind = .if) (h : t.kind = .if)
    (hcondition : ∀ t₁ : Translator, t₁.source.eof = eof → t₁.source.tokens = ts →
      Goes s cc steps t₁ mid () (expression s t₁).val)
    (haction : ∀ t₁ : Translator, t₁.source.eof = eof → t₁.source.tokens = mid.tail →
      Goes s ca more t₁ rest () (statement s t₁).val) :
    Goes s (.conditional opening (mid.headD eof) cc ca) (.pass opening :: (steps ++ .take .then (mid.headD eof) :: more)) t
      rest () (conditional s t h).val := by
  obtain ⟨hkind, rfl⟩ := kind_current_of_cons hts hk
  have hcond := hcondition ((t.does s (.produce .conditional)).expect s .if) heof (congrArg List.tail hts)
  have hcondEof := hcond.eof_eq.trans heof
  rw [conditional_val]
  unfold conditionalHead
  dsimp only
  generalize (expression s ((t.does s (.produce .conditional)).expect s .if)).val = t₁ at hcond hcondEof ⊢
  have hthen := goes_expect_of (s := s) (k := .then) (t := (t₁.asks s (.skipUnless t.current)).2) hcondEof hcond.tokens_eq
  have hact := haction _ (hthen.eof_eq.trans hcondEof) hthen.tokens_eq
  refine (goes_does (Effect.follows_produce _)).bind (.pass (t := t.does s (.produce .conditional)) hkind (hcond.bind ?_))
  refine (goes_does (Effect.follows_expectCondition _ _)).bind ((goes_asks Effect.follows_newLabel).bind ?_)
  refine (goes_asks Effect.follows_current).bind ((goes_does (Effect.follows_emitOn _ _ _)).bind ?_)
  exact hthen.andThen (hact.does (Effect.follows_emit_plain _))

theorem goes_loop {opening : Token} {ts mid rest : List Token} {condition action : Gen Unit} {cc : Course condition}
    {ca : Course action} {steps more : List (Step Token)} (heof : t.source.eof = eof)
    (hts : t.source.tokens = opening :: ts) (hk : opening.kind = .while) (h : t.kind = .while)
    (hcondition : ∀ t₁ : Translator, t₁.source.eof = eof → t₁.source.tokens = ts →
      Goes s cc steps t₁ mid () (expression s t₁).val)
    (haction : ∀ t₁ : Translator, t₁.source.eof = eof → t₁.source.tokens = mid.tail →
      Goes s ca more t₁ rest () (statement s t₁).val) :
    Goes s (.loop opening (mid.headD eof) cc ca) (.pass opening :: (steps ++ .take .do (mid.headD eof) :: more)) t
      rest () (loop s t h).val := by
  obtain ⟨hkind, rfl⟩ := kind_current_of_cons hts hk
  rw [loop_val]
  unfold loopHead
  dsimp only
  let labelled := (t.does s (.produce .loop)).asks s .loopLabels
  let entered := (labelled.2.expect s .while).does s (.emit [.comment "while statement", .label labelled.1.1])
  have hcond := hcondition entered heof (congrArg List.tail hts)
  have hcondEof := hcond.eof_eq.trans heof
  have hdo := goes_expect_of (s := s) (k := .do) hcondEof hcond.tokens_eq
  have hact := haction (((expression s entered).val.expect s .do).does s (.leaveUnless t.current labelled.1.2))
    (hdo.eof_eq.trans hcondEof) hdo.tokens_eq
  refine (goes_does (Effect.follows_produce _)).bind ((goes_asks Effect.follows_newLabel).bind ?_)
  refine (goes_asks Effect.follows_newLabel).bind (.pass (t := labelled.2) hkind ?_)
  refine (goes_does (Effect.follows_emit_plain _)).bind (hcond.bind (hdo.bind ?_))
  refine (goes_does (Effect.follows_expectCondition _ _)).bind ((goes_asks Effect.follows_current).bind ?_)
  exact (goes_does (Effect.follows_emitOn _ _ _)).andThen (hact.does (Effect.follows_emit_plain _))

theorem goes_enterScope : Goes s .enterScope [.enter] t t.source.tokens () (t.does s .enterScope) :=
  ⟨rfl, fun _ => rfl, Effect.follows_enterScope.carries s t.work⟩

theorem goes_leaveScope : Goes s .leaveScope [.leave] t t.source.tokens () (t.does s .leaveScope) :=
  ⟨rfl, fun _ => rfl, Effect.follows_leaveScope.carries s t.work⟩

theorem block_val (h : t.kind = .begin) : (block s t).val =
    ((statements s (((t.does s (.produce .block)).expect s .begin).does s .enterScope)).val.expect s .end).does s
      .leaveScope := by
  rw [block, dif_pos h]

theorem goes_block {opening : Token} {ts rest : List Token} {inside : Gen Unit} {c : Course inside}
    {steps : List (Step Token)} (heof : t.source.eof = eof) (hts : t.source.tokens = opening :: ts) (hk : opening.kind = .begin)
    (hinside : ∀ t₁ : Translator, t₁.source.eof = eof → t₁.source.tokens = ts →
      Goes s c steps t₁ rest () (statements s t₁).val) :
    Goes s (.block (rest.headD eof) c) (.pass opening :: .enter :: (steps ++ [.take .end (rest.headD eof), .leave])) t
      rest.tail () (block s t).val := by
  obtain ⟨hkind, rfl⟩ := kind_current_of_cons hts hk
  have hbody := hinside (((t.does s (.produce .block)).expect s .begin).does s .enterScope) heof (congrArg List.tail hts)
  rw [block_val hkind]
  have hend := goes_expect_of (s := s) (k := .end) (hbody.eof_eq.trans heof) hbody.tokens_eq
  have hleave := goes_leaveScope (s := s) (t := (statements s (((t.does s (.produce .block)).expect s .begin).does s
    .enterScope)).val.expect s .end)
  rw [hend.tokens_eq] at hleave
  exact (goes_does (Effect.follows_produce _)).andThen (.pass (t := t.does s (.produce .block)) hkind
    (goes_enterScope.andThen (hbody.andThen (hend.andThen hleave))))

/-- The target of a `read`, where there is one. -/
theorem reference_of_ne (h : t.kind ≠ .ident) : t.reference s = (false, t.does s (.produce .reference)) := if_neg h

theorem goes_read {keyword : Token} {ts : List Token} (heof : t.source.eof = eof) (hts : t.source.tokens = keyword :: ts)
    (hk : keyword.kind = .inout) (hread : keyword.value = "read") :
    Goes s (.read keyword (ts.headD eof) (target ts.tail).1 ((target ts.tail).2.headD eof))
      (.pass keyword :: .take .lparen (ts.headD eof) ::
        ((target ts.tail).1.toList.map .pass ++ [.take .rparen ((target ts.tail).2.headD eof)])) t
      (target ts.tail).2.tail () (t.inout s) := by
  obtain ⟨hkind, rfl⟩ := kind_current_of_cons hts hk
  have hopening := goes_expect_of (s := s) (k := .lparen) (t := (t.does s (.produce .inout)).expect s .inout) heof
    (congrArg List.tail hts)
  unfold inout
  dsimp only
  refine (goes_does (Effect.follows_produce _)).bind (.pass (t := t.does s (.produce .inout)) hkind (hopening.bind ?_))
  have hinnerEof := hopening.eof_eq.trans heof
  have hinner : (((t.does s (.produce .inout)).expect s .inout).expect s .lparen).source.tokens = ts.tail :=
    hopening.tokens_eq
  generalize ((t.does s (.produce .inout)).expect s .inout).expect s .lparen = t₁ at hinnerEof hinner ⊢
  unfold inoutValue
  rw [if_pos hread]
  dsimp only
  by_cases hident : nextKind ts.tail = .ident
  · obtain ⟨tok, more, hcons⟩ : ∃ tok more, ts.tail = tok :: more := by
      cases htail : ts.tail with
      | nil => rw [htail] at hident; cases hident
      | cons tok more => exact ⟨tok, more, rfl⟩
    rw [hcons] at hident hinner ⊢
    obtain ⟨hkind₁, rfl⟩ := kind_current_of_cons hinner hident
    have htarget : target (t₁.current :: more) = (some t₁.current, more) := if_pos hident
    have hname := goes_reference (s := s) hkind₁
    rw [hinner] at hname
    rw [htarget]
    refine hname.bind (.ite (fun hfound => ?_) fun hmissed => ?_)
    · rw [if_pos hfound]
      have hread := goes_does (s := s) (t := (t₁.reference s).2) (Effect.follows_readCurrent t.current)
      have hclosing := goes_expect_of (s := s) (k := .rparen) (t := (t₁.reference s).2.does s (.readCurrent t.current))
        (hname.eof_eq.trans hinnerEof) hname.tokens_eq
      exact hread.andThen hclosing
    · rw [if_neg hmissed]
      exact goes_expect_of (hname.eof_eq.trans hinnerEof) hname.tokens_eq
  -- Without a name the production is entered all the same, and no token is taken.
  · have htarget : target ts.tail = (none, ts.tail) := target_val none nofun hident
    have hkind₁ : t₁.kind ≠ .ident := by rwa [kind_eq, hinner]
    have hclosing := goes_expect_of (s := s) (k := .rparen) (t := t₁.does s (.produce .reference)) hinnerEof hinner
    rw [htarget, reference_of_ne hkind₁]
    exact (goes_does (Effect.follows_produce _)).andThen hclosing

/-- A note is taken before it is looked at what can be printed. -/
theorem does_write (t : Translator) (keyword : Token) : t.does s (.write keyword) =
    (t.does s (.note (if keyword.value = "writeln" then .writeLine else .write))).does s
      (.emitPrinting keyword
        (printLines (if keyword.value = "writeln" then "writeln" else "write") t.work.current)) := rfl

theorem goes_write {keyword : Token} {ts rest : List Token} {value : Gen Unit} {c : Course value} {steps : List (Step Token)}
    (heof : t.source.eof = eof) (hts : t.source.tokens = keyword :: ts) (hk : keyword.kind = .inout)
    (hwrite : keyword.value ≠ "read")
    (hvalue : ∀ t₁ : Translator, t₁.source.eof = eof → t₁.source.tokens = ts.tail →
      Goes s c steps t₁ rest () (expression s t₁).val) :
    Goes s (.write keyword (ts.headD eof) c (rest.headD eof))
      (.pass keyword :: .take .lparen (ts.headD eof) :: (steps ++ [.take .rparen (rest.headD eof)])) t rest.tail ()
      (t.inout s) := by
  obtain ⟨hkind, rfl⟩ := kind_current_of_cons hts hk
  have hopening := goes_expect_of (s := s) (k := .lparen) (t := (t.does s (.produce .inout)).expect s .inout) heof
    (congrArg List.tail hts)
  have hval := hvalue _ (hopening.eof_eq.trans heof) hopening.tokens_eq
  have hvalEof := hval.eof_eq.trans (hopening.eof_eq.trans heof)
  unfold inout inoutValue
  dsimp only
  rw [if_neg hwrite]
  refine (goes_does (Effect.follows_produce _)).bind
    (.pass (t := t.does s (.produce .inout)) hkind (hopening.bind (hval.bind ?_)))
  have htokens := hval.tokens_eq
  generalize (expression s (((t.does s (.produce .inout)).expect s .inout).expect s .lparen)).val = t₁ at hvalEof htokens ⊢
  refine (goes_does (Effect.follows_note _)).bind ((goes_asks Effect.follows_current).bind ?_)
  rw [does_write]
  have hcurrent (n : Note) : ((t₁.does s (.note n)).asks s .current).1 = t₁.work.current := rfl
  rw [hcurrent]
  cases printLines (if t.current.value = "writeln" then "writeln" else "write") t₁.work.current with
  | some ls =>
    refine (goes_does (Effect.follows_emitOn _ _ _)).bind ?_
    exact goes_expect_of hvalEof htokens
  | none => exact goes_expect_of hvalEof htokens

/-! ### Equations of the statements -/

/-- The kind of its first token says what a statement is. -/
theorem statement_val {entered : Translator} (hentered : t.does s (.produce .statement) = entered) :
    (t.kind ∉ statementKinds → (statement s t).val = entered) ∧
    (t.kind = .typeName → (statement s t).val = (entered.does s (.note .declaration)).declaration s) ∧
    (t.kind = .ident → (statement s t).val = (entered.does s (.note .assignment)).assignment s) ∧
    (∀ h : (entered.does s (.note .conditional)).kind = .if,
      (statement s t).val = (conditional s (entered.does s (.note .conditional)) h).val) ∧
    (t.kind = .begin → (statement s t).val = (block s (entered.does s (.note .block))).val) ∧
    (∀ h : (entered.does s (.note .loop)).kind = .while,
      (statement s t).val = (loop s (entered.does s (.note .loop)) h).val) ∧
    (t.kind = .inout → (statement s t).val = (entered.does s (.note .inout)).inout s) := by
  subst hentered
  rw [statement]
  split <;> simp_all [statementKinds]

theorem statement_empty (h : t.kind ∉ statementKinds) : (statement s t).val = t.does s (.produce .statement) :=
  (statement_val rfl).1 h

theorem statement_declare (h : t.kind = .typeName) :
    (statement s t).val = ((t.does s (.produce .statement)).does s (.note .declaration)).declaration s :=
  (statement_val rfl).2.1 h

theorem statement_assign (h : t.kind = .ident) :
    (statement s t).val = ((t.does s (.produce .statement)).does s (.note .assignment)).assignment s :=
  (statement_val rfl).2.2.1 h

theorem statement_if (h : t.kind = .if) :
    (statement s t).val = (conditional s ((t.does s (.produce .statement)).does s (.note .conditional)) h).val :=
  (statement_val rfl).2.2.2.1 h

theorem statement_begin (h : t.kind = .begin) :
    (statement s t).val = (block s ((t.does s (.produce .statement)).does s (.note .block))).val :=
  (statement_val rfl).2.2.2.2.1 h

theorem statement_while (h : t.kind = .while) :
    (statement s t).val = (loop s ((t.does s (.produce .statement)).does s (.note .loop)) h).val :=
  (statement_val rfl).2.2.2.2.2.1 h

theorem statement_inout (h : t.kind = .inout) :
    (statement s t).val = ((t.does s (.produce .statement)).does s (.note .inout)).inout s :=
  (statement_val rfl).2.2.2.2.2.2 h

theorem statements_done (h : t.kind = .end ∨ t.kind = .eof) : (statements s t).val = t := by
  rw [statements, dif_pos h]

theorem statements_last (h : ¬ (t.kind = .end ∨ t.kind = .eof)) (hend : (statement s t).val.kind = .end) :
    (statements s t).val = (statement s t).val := by
  rw [statements, dif_neg h]
  dsimp only
  rw [if_pos hend]

theorem statements_more (h : ¬ (t.kind = .end ∨ t.kind = .eof)) (hend : (statement s t).val.kind ≠ .end) :
    (statements s t).val = (statements s ((statement s t).val.expect s .semi)).val := by
  rw [statements, dif_neg h]
  dsimp only
  rw [if_neg hend]

section

variable (s : Settings) (eof : Token)

/-- A statement or the inside of a block is gone through as the tree says that is read from the tokens. -/
def CodeGoesBy {x : Extent} (parsed : Code x × List Token) (t t' : Translator) : Prop :=
  Goes s parsed.1.course parsed.1.steps t parsed.2 () t'

variable {s eof}

theorem goes_statement_empty {ts : List Token} (hts : t.source.tokens = ts) (hk : nextKind ts ∉ statementKinds) :
    CodeGoesBy s (Parse.statement eof ts).val t (statement s t).val := by
  subst hts
  rw [Parse.statement_empty hk, statement_empty (t.kind_eq ▸ hk)]
  exact goes_does (Effect.follows_produce _)

theorem goes_statements_done {ts : List Token} (hts : t.source.tokens = ts) (hk : nextKind ts = .end ∨ nextKind ts = .eof) :
    CodeGoesBy s (Parse.body eof ts).val t (statements s t).val := by
  subst hts
  rw [Parse.body_done hk, statements_done (t.kind_eq ▸ hk)]
  exact ⟨rfl, fun _ => rfl, fun _ => .refl s t.work⟩

theorem goes_inout {keyword : Token} {ts : List Token} (heof : t.source.eof = eof) (hts : t.source.tokens = keyword :: ts)
    (hk : keyword.kind = .inout) : CodeGoesBy s (Parse.statement eof (keyword :: ts)).val t (statement s t).val := by
  have hkind := (kind_current_of_cons hts hk).1
  rw [statement_inout hkind]
  by_cases hread : keyword.value = "read"
  · rw [Parse.statement_read hk hread]
    exact (goes_enter .inout).andThen (goes_read heof hts hk hread)
  · rw [Parse.statement_write hk hread]
    exact (goes_enter .inout).andThen (goes_write heof hts hk hread ((goes_expression s eof).1 _))

variable (s eof)

/-- By induction along the way in which the tree is read. -/
theorem goes_statement :
    (∀ ts t, t.source.eof = eof → t.source.tokens = ts → CodeGoesBy s (Parse.statement eof ts).val t (statement s t).val) ∧
    (∀ ts t, t.source.eof = eof → t.source.tokens = ts → CodeGoesBy s (Parse.body eof ts).val t (statements s t).val) := by
  have hexpression := (goes_expression s eof).1
  apply Parse.statement.mutual_induct eof
  -- a statement, by its first token: none, one of each kind that opens a statement, another one
  · intro t _ hts
    exact goes_statement_empty hts (by simp [nextKind, statementKinds])
  · intro tok ts hk t heof hts
    rw [Parse.statement_declare hk, statement_declare (kind_current_of_cons hts hk).1]
    exact (goes_enter .declaration).andThen (goes_declaration heof hts hk)
  · intro tok ts hk t heof hts
    rw [Parse.statement_assign hk, statement_assign (kind_current_of_cons hts hk).1]
    exact (goes_enter .assignment).andThen (goes_assignment heof hts hk (hexpression _))
  · intro tok ts hk
    dsimp only
    intro ih _ t heof hts
    rw [Parse.statement_if hk, statement_if (kind_current_of_cons hts hk).1]
    exact (goes_enter .conditional).andThen
      (goes_conditional (t := (t.does s (.produce .statement)).does s (.note .conditional)) heof hts hk _ (hexpression _) ih)
  · intro tok ts hk ih t heof hts
    rw [Parse.statement_begin hk, statement_begin (kind_current_of_cons hts hk).1]
    exact (goes_enter .block).andThen (goes_block heof hts hk ih)
  · intro tok ts hk
    dsimp only
    intro ih _ t heof hts
    rw [Parse.statement_while hk, statement_while (kind_current_of_cons hts hk).1]
    exact (goes_enter .loop).andThen
      (goes_loop (t := (t.does s (.produce .statement)).does s (.note .loop)) heof hts hk _ (hexpression _) ih)
  · exact fun tok ts hk t heof hts => goes_inout heof hts hk
  · intro tok ts h₁ h₂ h₃ h₄ h₅ h₆ t _ hts
    refine goes_statement_empty hts ?_
    simp only [nextKind, statementKinds, List.mem_cons, List.not_mem_nil, or_false, not_or]
    exact ⟨h₁, h₂, h₃, h₄, h₅, h₆⟩
  -- the inside of a block: no token, its end, a last statement, a statement with others behind it
  · exact fun t _ hts => goes_statements_done hts (.inr rfl)
  · exact fun tok ts hk t _ hts => goes_statements_done hts hk
  · intro tok ts hk
    dsimp only
    intro hend ih t heof hts
    have hfirst := ih t heof hts
    have hstart : ¬ (t.kind = .end ∨ t.kind = .eof) := by rwa [t.kind_eq, hts]
    have hbody : (Parse.body eof (tok :: ts)).val = _ := Parse.body_last hk rfl hend
    rw [hbody, statements_last hstart (hfirst.kind_eq.trans hend)]
    exact hfirst
  · intro tok ts hk
    dsimp only
    intro hend ih ihRest _ t heof hts
    have hfirst := ih t heof hts
    have hstart : ¬ (t.kind = .end ∨ t.kind = .eof) := by rwa [t.kind_eq, hts]
    have hfirstEof := hfirst.eof_eq.trans heof
    have hseparator := goes_expect_of (s := s) (k := .semi) hfirstEof hfirst.tokens_eq
    have hrest := ihRest _ (hseparator.eof_eq.trans hfirstEof) hseparator.tokens_eq
    have hbody : (Parse.body eof (tok :: ts)).val = _ := Parse.body_more hk hend
    rw [hbody, statements_more hstart (hfirst.kind_eq.trans_ne hend)]
    exact hfirst.andThen (hseparator.andThen hrest)

end

/-! ## Programs -/

theorem goes_programBody {ts : List Token} (heof : t.source.eof = eof) (hts : t.source.tokens = ts) :
    Goes s (Parse.program eof ts).1.bodyCourse (Parse.program eof ts).1.steps t (Parse.program eof ts).2 ()
      ((block s t).val.expect s .dot) := by
  by_cases hk : nextKind ts = .begin
  · cases ts with
    | nil => cases hk
    | cons opening ts =>
      have hblock := goes_block heof hts hk ((goes_statement s eof).2 ts)
      have hstop := goes_expect_of (s := s) (k := .dot) (hblock.eof_eq.trans heof) hblock.tokens_eq
      rw [Parse.program_block hk]
      refine (hblock.andThen hstop).congr ?_
      simp [Program.steps]
  · have hbare : (block s t).val = t.does s (.produce .block) := by
      rw [block, dif_neg (by rwa [kind_eq, hts])]
    have hstop := goes_expect_of (s := s) (k := .dot) (t := t.does s (.produce .block)) heof hts
    rw [Parse.program_bare hk, hbare]
    exact (goes_does (Effect.follows_produce _)).andThen hstop

theorem goes_pure : Goes s (.pure ()) [] t t.source.tokens () t := ⟨rfl, fun _ => rfl, fun _ => .refl s t.work⟩

/-- The first lines of a program. -/
theorem Goes.opened {m : Gen Unit} {c : Course m} {steps : List (Step Token)} {rest : List Token} (ls : List Line)
    (h : Goes s c steps (t.does s do .produce .program; .note .program; .emit ls) rest () t₁) :
    Goes s (.bind (.produce .program) fun _ => .bind (.note .program) fun _ => .bind (.emit ls) fun _ => c) steps t rest ()
      t₁ :=
  (goes_does (Effect.follows_produce _)).andThen ((goes_does (Effect.follows_note _)).andThen
    ((goes_does (Effect.follows_emit_plain ls)).andThen h))

/-- The last lines, and a remark where tokens are left. -/
theorem goes_closing (ls : List Line) {next : Token} (hnext : t.current = next) :
    Goes s (.bind (.emit ls) fun _ => .ite (p := next.isEof) (.pure ()) (.remark next .trailing)) [] t t.source.tokens ()
      (let last := t.does s (.emit ls)
      if last.current.isEof then last else last.does s (.remark last.current .trailing)) := by
  subst hnext
  have hcurrent : (t.does s (.emit ls)).current = t.current := rfl
  dsimp only
  rw [hcurrent]
  refine (goes_does (Effect.follows_emit_plain ls)).andThen (.ite (fun heof => ?_) fun hmore => ?_)
  · rw [if_pos heof]
    exact goes_pure
  · rw [if_neg hmore]
    exact goes_does (Effect.follows_remark ..)

end Translator

open Translator

/-- A translation goes through its tokens as the tree says that is read from them. -/
theorem goes_translate (s : Settings) (source : TokenSource) :
    Goes s (source.parse.1.course (source.parse.2.headD source.eof)) source.parse.1.steps
      { source, work := .start s.wordSize } source.parse.2 () (translate s source) := by
  refine .opened prolog ?_
  let entered := Translator.does s { source, work := .start s.wordSize } do
    .produce .program
    .note .program
    .emit prolog
  have hbody := goes_programBody (s := s) (t := entered) rfl rfl
  have hall := hbody.andThen (goes_closing (s := s) postlog hbody.current_eq)
  rw [List.append_nil, hbody.tokens_eq] at hall
  exact hall

/-! ## What a translation has made -/

/-- The event of a lowering that an action makes. -/
def Action.event? (a : Action) : Option Event := a.move?.bind Move.event?

/-- The call of the symbol table that a move makes. -/
def Move.call? : Move → Option Call
  | ask c => some c
  | _ => none

/-- The call of the symbol table that an action makes. -/
def Action.call? (a : Action) : Option Call := a.move?.bind Move.call?

namespace Work

variable {s : Settings}

/-- What of the work is kept as a record. -/
def record (w : Work) : Record := ⟨w.lines.toList, w.derivation.toList, w.trace.toList, w.diagnostics.toList, w.ok⟩

/-- An action keeps its event as settings say. -/
theorem record_after (w : Work) {a : Action} (h : a.Fits s) :
    (w.after s a).record = a.event?.elim w.record (w.record.keep s) := by
  cases a with
  | note n =>
    cases htrace : s.feature .verboseTrace <;>
      simp [after, apply, record, Action.event?, Action.move?, Move.event?, Record.keep, htrace]
  | record d =>
    have hlax : d.fault.isFatal s = false := h
    simp [after, apply, record, Action.event?, Action.move?, Move.event?, Record.keep, hlax]
  | fail d =>
    have hfatal : d.fault.isFatal s = true := h
    simp [after, apply, record, Action.event?, Action.move?, Move.event?, Record.keep, hfatal]
  | produce | emit => simp [after, apply, record, Action.event?, Action.move?, Move.event?, Record.keep]
  | take | remark | become | label | ask => rfl

theorem record_run (w : Work) {new : List Action} (h : ∀ a ∈ new, a.Fits s) :
    (w.run s new).record = (new.filterMap Action.event?).foldl (Record.keep s) w.record := by
  induction new generalizing w with
  | nil => rfl
  | cons a rest ih =>
    obtain ⟨ha, hrest⟩ := List.forall_mem_cons.1 h
    rw [run, ih _ hrest, record_after w ha]
    cases hevent : a.event? <;> simp [hevent]

theorem remarks_run (w : Work) (new : List Action) :
    (w.run s new).remarks.toList = w.remarks.toList ++ (new.filterMap Action.event?).filterMap Event.remark? := by
  induction new generalizing w with
  | nil => simp [run]
  | cons a rest ih =>
    rw [run, ih]
    cases a <;> simp [after, apply, Action.event?, Action.move?, Move.event?, Event.remark?, List.filterMap_cons]

/-- The symbol table changes by calls alone. -/
theorem table_run (w : Work) (new : List Action) : (w.run s new).table = w.table.run (new.filterMap Action.call?) := by
  induction new generalizing w with
  | nil => rfl
  | cons a rest ih =>
    rw [run, ih]
    cases a <;> rfl

end Work

/-- What is seen of a move is seen where it is made plain. -/
theorem Move.event?_plain? (x : Move) : x.plain?.bind Move.event? = x.event? := by cases x <;> rfl

theorem translate_carries (s : Settings) (source : TokenSource) :
    Work.Carries s (source.moves s.wordSize) (source.parse.1.steps.flatMap Step.sights) (.start s.wordSize)
      (translate s source).work :=
  (goes_translate s source).carries (Arena.valid_new _)

/-- The log of a translation tells how the work was done. -/
structure Translator.Logged (t : Translator) (s : Settings) (source : TokenSource) : Prop where
  work : t.work = (Work.start s.wordSize).run s t.work.log.toList
  moves : t.work.log.toList.filterMap Action.move? = (source.moves s.wordSize).filterMap Move.plain?
  sights : t.work.log.toList.filterMap Action.sight? = source.parse.1.steps.flatMap Step.sights
  fits : ∀ a ∈ t.work.log.toList, a.Fits s

theorem translate_logged (s : Settings) (source : TokenSource) : (translate s source).Logged s source := by
  obtain ⟨new, hrun, hmoves, hsights, hfits⟩ := translate_carries s source
  have hlog : (translate s source).work.log.toList = new := by
    rw [hrun, Work.log_run]
    rfl
  exact ⟨by rw [hlog, hrun], by rw [hlog, hmoves], by rw [hlog, hsights], by rwa [hlog]⟩

/-- The events of a lowering are what the actions of the translation make. -/
theorem events_translate (s : Settings) (source : TokenSource) :
    (translate s source).work.log.toList.filterMap Action.event? = (lower s.wordSize source).events := by
  have hfollows := (source.parse.1.course (source.parse.2.headD source.eof)).follows (.start s.wordSize)
  calc (translate s source).work.log.toList.filterMap Action.event?
      = ((translate s source).work.log.toList.filterMap Action.move?).filterMap Move.event? := by
        rw [List.filterMap_filterMap]
        rfl
    _ = (source.moves s.wordSize).filterMap Move.event? := by
        rw [(translate_logged s source).moves, List.filterMap_filterMap]
        simp only [Move.event?_plain?]
    _ = (lower s.wordSize source).events := (Moment.events_run ..).symm.trans hfollows.events

theorem record_translate (s : Settings) (source : TokenSource) :
    (translate s source).work.record = .ofEvents s (lower s.wordSize source).events := by
  have hlogged := translate_logged s source
  rw [hlogged.work, Work.record_run _ hlogged.fits, events_translate]
  rfl

/-- A translation has made what a lowering is seen as. -/
structure Translator.Agrees (t : Translator) (s : Settings) (l : Lowering) : Prop where
  lines : t.work.lines.toList = l.lines
  derivation : t.work.derivation.toList = l.derivation
  diagnostics : t.work.diagnostics.toList = l.diagnostics
  remarks : t.work.remarks.toList = l.remarks
  ok : t.work.ok = l.succeeded s
  trace : t.trace = l.trace s
  state : t.work.state = l.state
  dump : t.work.table.dump = l.table.dump
  rest : t.source.tokens = l.rest
  exhausted : t.exhausted = l.exhausted
  shouldFlush : t.shouldFlush s = l.writes s

/-- One pass over the tokens does what reading a tree and lowering it do one after the other. -/
theorem translate_agrees (s : Settings) (source : TokenSource) : (translate s source).Agrees s (lower s.wordSize source) := by
  have hgoes := goes_translate s source
  have hlogged := translate_logged s source
  have hrecord := (record_translate s source).trans ((lower s.wordSize source).record_eq s)
  have hvalid : (translate s source).work.table.Valid := (hgoes.carries (Arena.valid_new _)).valid (Arena.valid_new _)
  have hstate : (translate s source).work.state = (lower s.wordSize source).state :=
    (hgoes.carries (Arena.valid_new _)).state_eq (Arena.valid_new _)
  have hok : (translate s source).work.ok = (lower s.wordSize source).succeeded s := congrArg Record.ok hrecord
  have hexhausted : (translate s source).exhausted = (lower s.wordSize source).exhausted :=
    congrArg (fun k => decide (k = Kind.eof)) hgoes.kind_eq
  refine ⟨congrArg Record.lines hrecord, congrArg Record.derivation hrecord, congrArg Record.diagnostics hrecord, ?_, hok,
    ?_, hstate, ?_, hgoes.tokens_eq, hexhausted, ?_⟩
  · rw [hlogged.work, Work.remarks_run, events_translate]
    rfl
  · rw [Lowering.trace_eq, ← record_translate]
    rfl
  · rw [hvalid.dump_eq, Lowering.table, ← hstate]
    rfl
  · rw [shouldFlush, hok, hexhausted]
    rfl

end AlgolMips
