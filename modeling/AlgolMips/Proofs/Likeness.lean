import AlgolMips.Proofs.Parsing

/-!
# Tokens that look alike

Reading looks at the kinds of tokens, and at the texts of input and output keywords; of those only at whether they are
`read`. Two sources whose tokens a function cannot tell apart are therefore read into programs that the function cannot
tell apart (`TokenSource.parse_alike`), as long as it does not hide what reading looks at. A source goes on with end marks
without end, so the sources need not be of one length: one of them may spell out end marks that the other leaves out.

Reading looks at no more than the tokens that it takes and the one behind them. So it is enough that the sources are
alike up to there (`TokenSource.parse_alikeTo`).
-/

namespace AlgolMips

/-- The token with an index: behind the last one there is an end mark. -/
def TokenSource.token (s : TokenSource) (n : Nat) : Token := s.tokens.getD n s.eof

/-! ## Trees with other tokens -/

/-- An expression with every token replaced. -/
def Expr.map (f : Token → Token) : {l : Level} → Expr l → Expr l
  | _, .add left op right => .add (left.map f) (f op) (right.map f)
  | _, .term e => .term (e.map f)
  | _, .mul left op right => .mul (left.map f) (f op) (right.map f)
  | _, .relation e => .relation (e.map f)
  | _, .compare left op right => .compare (left.map f) (f op) (right.map f)
  | _, .factor e => .factor (e.map f)
  | _, .missing => .missing
  | _, .name tok => .name (f tok)
  | _, .literal tok => .literal (f tok)
  | _, .negation op e => .negation (f op) (e.map f)
  | _, .group opening e closing => .group (f opening) (e.map f) (f closing)

/-- A statement or the inside of a block with every token replaced. -/
def Code.map (f : Token → Token) : {x : Extent} → Code x → Code x
  | _, .empty => .empty
  | _, .declare type name => .declare (f type) (f name)
  | _, .assign target sign value => .assign (f target) (f sign) (value.map f)
  | _, .ifThen opening condition middle action => .ifThen (f opening) (condition.map f) (f middle) (action.map f)
  | _, .whileDo opening condition middle action => .whileDo (f opening) (condition.map f) (f middle) (action.map f)
  | _, .block opening inside closing => .block (f opening) (inside.map f) (f closing)
  | _, .read keyword opening target closing => .read (f keyword) (f opening) (target.map f) (f closing)
  | _, .write keyword opening value closing => .write (f keyword) (f opening) (value.map f) (f closing)
  | _, .done => .done
  | _, .last s => .last (s.map f)
  | _, .next s separator rest => .next (s.map f) (f separator) (rest.map f)

/-- A program with every token replaced. -/
def Program.map (f : Token → Token) : Program → Program
  | .bare stop => .bare (f stop)
  | .block opening inside closing stop => .block (f opening) (inside.map f) (f closing) (f stop)

namespace Parse

/-- A function of tokens that hides nothing of what reading looks at. -/
structure Telling (f : Token → Token) : Prop where
  kind : ∀ {t t'}, f t = f t' → t.kind = t'.kind
  read : ∀ {t t'}, f t = f t' → t.kind = .inout → (t.value = "read" ↔ t'.value = "read")

/-- The tokens of two lists up to the one with index `m`, with an end mark of each behind them again and again, are the
same to a function. -/
def AlikeTo (f : Token → Token) (eof eof' : Token) (m : Nat) (ts ts' : List Token) : Prop :=
  ∀ n ≤ m, f (ts.getD n eof) = f (ts'.getD n eof')

section

variable {f : Token → Token} {eof eof' : Token} {ts ts' : List Token} {m n : Nat}

theorem AlikeTo.mono (h : AlikeTo f eof eof' m ts ts') (hn : n ≤ m) : AlikeTo f eof eof' n ts ts' :=
  fun i hi => h i (Nat.le_trans hi hn)

theorem AlikeTo.head (h : AlikeTo f eof eof' m ts ts') : f (ts.headD eof) = f (ts'.headD eof') := by
  have h₀ := h 0 (Nat.zero_le m)
  cases ts <;> cases ts' <;> exact h₀

theorem AlikeTo.tail (h : AlikeTo f eof eof' m ts ts') (hn : n < m) : AlikeTo f eof eof' n ts.tail ts'.tail := by
  intro i hi
  have hnext := h (i + 1) (by omega)
  cases ts <;> cases ts' <;> exact hnext

/-- Trees that are the same to a function, and the tokens behind them up to an index. -/
def SameTo {l : Level} (f : Token → Token) (eof eof' : Token) (n : Nat) (p p' : Expr l × List Token) : Prop :=
  p.1.map f = p'.1.map f ∧ AlikeTo f eof eof' n p.2 p'.2

def CodeSameTo {x : Extent} (f : Token → Token) (eof eof' : Token) (n : Nat) (p p' : Code x × List Token) : Prop :=
  p.1.map f = p'.1.map f ∧ AlikeTo f eof eof' n p.2 p'.2

variable (hf : Telling f) (heof : eof.kind = .eof) (heof' : eof'.kind = .eof)

include hf heof heof'

theorem AlikeTo.nextKind_eq (h : AlikeTo f eof eof' m ts ts') : nextKind ts = nextKind ts' := by
  have hk := hf.kind h.head
  have hnext : ∀ {e : Token} {l : List Token}, e.kind = .eof → nextKind l = (l.headD e).kind := by
    intro e l he
    cases l with
    | nil => exact he.symm
    | cons t rest => rfl
  rw [hnext heof, hnext heof', hk]

/-- A token that is no end mark has a counterpart. -/
theorem AlikeTo.cons {t : Token} (h : AlikeTo f eof eof' m (t :: ts) ts') (hk : t.kind ≠ .eof) (hn : n < m) :
    ∃ t' rest', ts' = t' :: rest' ∧ f t = f t' ∧ t'.kind = t.kind ∧ AlikeTo f eof eof' n ts rest' := by
  have hkind : t.kind = nextKind ts' := h.nextKind_eq hf heof heof'
  cases ts' with
  | nil => exact absurd hkind hk
  | cons t' rest' => exact ⟨t', rest', rfl, h.head, hkind.symm, h.tail hn⟩

/-- A relation, given what is known of the factors that it is read from. -/
theorem relation_alike {ts ts' behind : List Token} {left : Expr .factor} (hl : (factor eof ts).val = (left, behind))
    (hleft : ∀ n, left.tokens.length + n ≤ m → SameTo f eof eof' n (left, behind) (factor eof' ts').val)
    (hright : ∀ t rest, behind = t :: rest → t.kind = .relOp → ∀ m n rest',
      (factor eof rest).val.1.tokens.length + n ≤ m → AlikeTo f eof eof' m rest rest' →
      SameTo f eof eof' n (factor eof rest).val (factor eof' rest').val)
    (hm : (relation eof ts).val.1.tokens.length + n ≤ m) :
    SameTo f eof eof' n (relation eof ts).val (relation eof' ts').val := by
  by_cases hk : nextKind behind = .relOp
  · cases behind with
    | nil => cases hk
    | cons op rest =>
      have hop : op.kind = .relOp := hk
      rw [relation_step hl hop] at hm ⊢
      simp only [Expr.tokens, List.length_append, List.length_cons] at hm
      obtain ⟨htree, hrest⟩ := hleft ((factor eof rest).val.1.tokens.length + n + 1) (by omega)
      obtain ⟨op', rest', hval', hfop, hkop, hmore⟩ :=
        hrest.cons hf heof heof' (by rw [hop]; decide) (Nat.lt_succ_self _)
      obtain ⟨hr, hlast⟩ := hright op rest rfl hop _ n rest' (Nat.le_refl _) hmore
      rw [relation_step (Prod.ext rfl hval') (hkop.trans hop)]
      refine ⟨?_, hlast⟩
      simp only [Expr.map]
      rw [show left.map f = _ from htree, hfop, hr]
  · rw [relation_stop hl hk] at hm ⊢
    obtain ⟨htree, hrest⟩ := hleft n hm
    have hk' : nextKind (factor eof' ts').val.2 ≠ .relOp := by
      rw [← hrest.nextKind_eq hf heof heof']
      exact hk
    rw [relation_stop rfl hk']
    exact ⟨congrArg Expr.factor htree, hrest⟩

/-- Expressions by induction along the way in which the first one is read. As many tokens as it has are taken from both
lists; what an operator tail takes is the difference to what stood in front of it. -/
theorem expression_alike :
    (∀ ts m n ts', (expression eof ts).val.1.tokens.length + n ≤ m → AlikeTo f eof eof' m ts ts' →
      SameTo f eof eof' n (expression eof ts).val (expression eof' ts').val) ∧
    (∀ left ts, left.tokens.length ≤ (expressionTail eof left ts).val.1.tokens.length ∧ ∀ m n left' ts',
      (expressionTail eof left ts).val.1.tokens.length + n ≤ left.tokens.length + m → left.map f = left'.map f →
      AlikeTo f eof eof' m ts ts' →
      SameTo f eof eof' n (expressionTail eof left ts).val (expressionTail eof' left' ts').val) ∧
    (∀ ts m n ts', (term eof ts).val.1.tokens.length + n ≤ m → AlikeTo f eof eof' m ts ts' →
      SameTo f eof eof' n (term eof ts).val (term eof' ts').val) ∧
    (∀ left ts, left.tokens.length ≤ (termTail eof left ts).val.1.tokens.length ∧ ∀ m n left' ts',
      (termTail eof left ts).val.1.tokens.length + n ≤ left.tokens.length + m → left.map f = left'.map f →
      AlikeTo f eof eof' m ts ts' →
      SameTo f eof eof' n (termTail eof left ts).val (termTail eof' left' ts').val) ∧
    (∀ ts m n ts', (relation eof ts).val.1.tokens.length + n ≤ m → AlikeTo f eof eof' m ts ts' →
      SameTo f eof eof' n (relation eof ts).val (relation eof' ts').val) ∧
    (∀ ts m n ts', (factor eof ts).val.1.tokens.length + n ≤ m → AlikeTo f eof eof' m ts ts' →
      SameTo f eof eof' n (factor eof ts).val (factor eof' ts').val) := by
  apply Parse.expression.mutual_induct eof
  · intro ts
    dsimp only
    intro ihTerm ihTail _ m n ts' hm h
    rw [Parse.expression_val] at hm ⊢
    rw [Parse.expression_val]
    have hfirst : (term eof ts).val.1.tokens.length ≤ _ := ihTail.1
    obtain ⟨htree, hrest⟩ := ihTerm m (m - (term eof ts).val.1.tokens.length) ts' (by omega) h
    refine ihTail.2 _ n _ _ ?_ (congrArg Expr.term htree) hrest
    show _ ≤ (term eof ts).val.1.tokens.length + _
    omega
  · intro left
    rw [expressionTail_stop (by decide)]
    refine ⟨Nat.le_refl _, fun m n left' ts' hm hleft h => ?_⟩
    have hk := h.nextKind_eq hf heof heof'
    rw [expressionTail_stop (by rw [← hk]; decide)]
    exact ⟨hleft, h.mono (Nat.le_of_add_le_add_left hm)⟩
  · intro left t rest hk
    dsimp only
    intro ihTerm ihTail _
    rw [expressionTail_step hk]
    simp only [Expr.tokens, List.length_append, List.length_cons] at ihTail
    have hnow := ihTail.1
    refine ⟨by omega, fun m n left' ts' hm hleft h => ?_⟩
    obtain ⟨t', rest', rfl, hft, hkt, hmore⟩ := h.cons hf heof heof' (by rw [hk]; decide) (show m - 1 < m by omega)
    rw [expressionTail_step (hkt.trans hk)]
    obtain ⟨htree, hrest⟩ := ihTerm (m - 1) (m - 1 - (term eof rest).val.1.tokens.length) rest' (by omega) hmore
    refine ihTail.2 _ n _ _ (by omega) ?_ hrest
    simp only [Expr.map]
    rw [hleft, hft, htree]
  · intro left t rest hk
    have hstop : nextKind (t :: rest) ≠ .addOp := hk
    rw [expressionTail_stop hstop]
    refine ⟨Nat.le_refl _, fun m n left' ts' hm hleft h => ?_⟩
    have hsame := h.nextKind_eq hf heof heof'
    rw [expressionTail_stop (hsame ▸ hstop)]
    exact ⟨hleft, h.mono (Nat.le_of_add_le_add_left hm)⟩
  · intro ts
    dsimp only
    intro ihRelation ihTail _ m n ts' hm h
    rw [Parse.term_val] at hm ⊢
    rw [Parse.term_val]
    have hfirst : (relation eof ts).val.1.tokens.length ≤ _ := ihTail.1
    obtain ⟨htree, hrest⟩ := ihRelation m (m - (relation eof ts).val.1.tokens.length) ts' (by omega) h
    refine ihTail.2 _ n _ _ ?_ (congrArg Expr.relation htree) hrest
    show _ ≤ (relation eof ts).val.1.tokens.length + _
    omega
  · intro left
    rw [termTail_stop (by decide)]
    refine ⟨Nat.le_refl _, fun m n left' ts' hm hleft h => ?_⟩
    have hk := h.nextKind_eq hf heof heof'
    rw [termTail_stop (by rw [← hk]; decide)]
    exact ⟨hleft, h.mono (Nat.le_of_add_le_add_left hm)⟩
  · intro left t rest hk
    dsimp only
    intro ihRelation ihTail _
    rw [termTail_step hk]
    simp only [Expr.tokens, List.length_append, List.length_cons] at ihTail
    have hnow := ihTail.1
    refine ⟨by omega, fun m n left' ts' hm hleft h => ?_⟩
    obtain ⟨t', rest', rfl, hft, hkt, hmore⟩ := h.cons hf heof heof' (by rw [hk]; decide) (show m - 1 < m by omega)
    rw [termTail_step (hkt.trans hk)]
    obtain ⟨htree, hrest⟩ := ihRelation (m - 1) (m - 1 - (relation eof rest).val.1.tokens.length) rest' (by omega) hmore
    refine ihTail.2 _ n _ _ (by omega) ?_ hrest
    simp only [Expr.map]
    rw [hleft, hft, htree]
  · intro left t rest hk
    have hstop : nextKind (t :: rest) ≠ .mulOp := hk
    rw [termTail_stop hstop]
    refine ⟨Nat.le_refl _, fun m n left' ts' hm hleft h => ?_⟩
    have hsame := h.nextKind_eq hf heof heof'
    rw [termTail_stop (hsame ▸ hstop)]
    exact ⟨hleft, h.mono (Nat.le_of_add_le_add_left hm)⟩
  · intro ts left hrest ihFactor m n ts' hm h
    obtain ⟨e, he⟩ : ∃ e, (factor eof ts).val = (e, []) := ⟨_, Prod.ext rfl hrest⟩
    rw [he] at ihFactor
    refine relation_alike hf heof heof' he (fun n hn => ihFactor m n ts' hn h) ?_ hm
    rintro op more ⟨⟩
  · intro ts left t rest hrest hk ihLeft ihRight m n ts' hm h
    obtain ⟨e, he⟩ : ∃ e, (factor eof ts).val = (e, t :: rest) := ⟨_, Prod.ext rfl hrest⟩
    rw [he] at ihLeft
    refine relation_alike hf heof heof' he (fun n hn => ihLeft m n ts' hn h) ?_ hm
    rintro op more ⟨⟩ _
    exact ihRight
  · intro ts left t rest hrest hk ihFactor m n ts' hm h
    obtain ⟨e, he⟩ : ∃ e, (factor eof ts).val = (e, t :: rest) := ⟨_, Prod.ext rfl hrest⟩
    rw [he] at ihFactor
    refine relation_alike hf heof heof' he (fun n hn => ihFactor m n ts' hn h) ?_ hm
    rintro op more ⟨⟩ hop
    exact absurd hop hk
  · intro m n ts' hm h
    have hk := h.nextKind_eq hf heof heof'
    rw [factor_missing (by simp [nextKind, Level.continuations, factorKinds]),
      factor_missing (by rw [← hk]; simp [nextKind, Level.continuations, factorKinds])]
    exact ⟨rfl, h.mono (by omega)⟩
  · intro t rest hk m n ts' hm h
    rw [factor_name hk] at hm ⊢
    simp only [Expr.tokens, List.length_cons, List.length_nil] at hm
    obtain ⟨t', rest', rfl, hft, hkt, hmore⟩ := h.cons hf heof heof' (by rw [hk]; decide) (show n < m by omega)
    rw [factor_name (hkt.trans hk)]
    exact ⟨congrArg Expr.name hft, hmore⟩
  · intro t rest hk m n ts' hm h
    rw [factor_literal hk] at hm ⊢
    simp only [Expr.tokens, List.length_cons, List.length_nil] at hm
    obtain ⟨t', rest', rfl, hft, hkt, hmore⟩ := h.cons hf heof heof' (by rw [hk]; decide) (show n < m by omega)
    rw [factor_literal (hkt.trans hk)]
    exact ⟨congrArg Expr.literal hft, hmore⟩
  · intro t rest hk ih m n ts' hm h
    rw [factor_not hk] at hm ⊢
    simp only [Expr.tokens, List.length_cons] at hm
    obtain ⟨t', rest', rfl, hft, hkt, hmore⟩ := h.cons hf heof heof' (by rw [hk]; decide) (show m - 1 < m by omega)
    rw [factor_not (hkt.trans hk)]
    obtain ⟨htree, hrest⟩ := ih (m - 1) n rest' (by omega) hmore
    refine ⟨?_, hrest⟩
    simp only [Expr.map]
    rw [hft, htree]
  · intro t rest hk ih m n ts' hm h
    rw [factor_lparen hk] at hm ⊢
    simp only [Expr.tokens, List.length_cons, List.length_append, List.length_nil] at hm
    obtain ⟨t', rest', rfl, hft, hkt, hmore⟩ := h.cons hf heof heof' (by rw [hk]; decide) (show m - 1 < m by omega)
    rw [factor_lparen (hkt.trans hk)]
    obtain ⟨htree, hrest⟩ := ih (m - 1) (n + 1) rest' (by omega) hmore
    refine ⟨?_, hrest.tail (Nat.lt_succ_self n)⟩
    simp only [Expr.map]
    rw [hft, htree, hrest.head]
  · intro t rest h₁ h₂ h₃ h₄ m n ts' hm h
    have hk := h.nextKind_eq hf heof heof'
    have hstop : nextKind (t :: rest) ∉ Level.factor.continuations := by
      simp only [nextKind, Level.continuations, factorKinds, List.mem_cons, List.not_mem_nil, or_false, not_or]
      exact ⟨h₁, h₂, h₃, h₄⟩
    rw [factor_missing hstop, factor_missing (hk ▸ hstop)]
    exact ⟨rfl, h.mono (by omega)⟩

theorem enclosed_alike (hm : (enclosed eof ts).val.1.1.tokens.length + n < m) (h : AlikeTo f eof eof' m ts ts') :
    (enclosed eof ts).val.1.1.map f = (enclosed eof' ts').val.1.1.map f ∧
      f (enclosed eof ts).val.1.2 = f (enclosed eof' ts').val.1.2 ∧
      AlikeTo f eof eof' n (enclosed eof ts).val.2 (enclosed eof' ts').val.2 := by
  obtain ⟨htree, hrest⟩ := (expression_alike hf heof heof').1 ts m (n + 1) ts' hm h
  exact ⟨htree, hrest.head, hrest.tail (Nat.lt_succ_self n)⟩

theorem target_alike (hm : (target ts).1.toList.length + n ≤ m) (h : AlikeTo f eof eof' m ts ts') :
    (target ts).1.map f = (target ts').1.map f ∧ AlikeTo f eof eof' n (target ts).2 (target ts').2 := by
  have htarget : ∀ l : List Token, nextKind l ≠ .ident → target l = (none, l) := fun l hl => target_val none nofun hl
  by_cases hk : nextKind ts = .ident
  · cases ts with
    | nil => cases hk
    | cons t rest =>
      have ht : t.kind = .ident := hk
      simp only [target, ht, if_true, Option.toList_some, List.length_cons, List.length_nil] at hm ⊢
      obtain ⟨t', rest', rfl, hft, hkt, hmore⟩ := h.cons hf heof heof' (by rw [ht]; decide) (show n < m by omega)
      simp only [hkt, ht, if_true]
      exact ⟨congrArg some hft, hmore⟩
  · have hk' : nextKind ts' ≠ .ident := h.nextKind_eq hf heof heof' ▸ hk
    rw [htarget ts hk, htarget ts' hk']
    exact ⟨rfl, h.mono (by omega)⟩

theorem inout_alike {t : Token} (hk : t.kind = .inout) (hm : (statement eof (t :: ts)).val.1.tokens.length + n ≤ m)
    (h : AlikeTo f eof eof' m (t :: ts) ts') :
    CodeSameTo f eof eof' n (statement eof (t :: ts)).val (statement eof' ts').val := by
  by_cases hread : t.value = "read"
  · rw [statement_read hk hread] at hm ⊢
    simp only [Code.tokens, List.length_cons, List.length_append, List.length_nil] at hm
    obtain ⟨t', rest', rfl, hft, hkt, hmore⟩ := h.cons hf heof heof' (by rw [hk]; decide) (show m - 1 < m by omega)
    rw [statement_read (hkt.trans hk) ((hf.read hft hk).1 hread)]
    obtain ⟨htarget, hrest⟩ :=
      target_alike hf heof heof' (n := n + 1) (by omega) (hmore.tail (show m - 2 < m - 1 by omega))
    refine ⟨?_, hrest.tail (Nat.lt_succ_self n)⟩
    simp only [Code.map]
    rw [hft, hmore.head, htarget, hrest.head]
  · rw [statement_write hk hread] at hm ⊢
    simp only [Code.tokens, List.length_cons, List.length_append, List.length_nil] at hm
    obtain ⟨t', rest', rfl, hft, hkt, hmore⟩ := h.cons hf heof heof' (by rw [hk]; decide) (show m - 1 < m by omega)
    rw [statement_write (hkt.trans hk) fun hr => hread ((hf.read hft hk).2 hr)]
    obtain ⟨hvalue, hclosing, hrest⟩ :=
      enclosed_alike hf heof heof' (n := n) (by omega) (hmore.tail (show m - 2 < m - 1 by omega))
    refine ⟨?_, hrest⟩
    simp only [Code.map]
    rw [hft, hmore.head, hvalue, hclosing]

/-- The inside of a block behind its first statement. -/
theorem body_alike {ts ts' : List Token} (h : AlikeTo f eof eof' m ts ts')
    (hstart : ¬ (nextKind ts = .end ∨ nextKind ts = .eof))
    (hs : ∀ n, (statement eof ts).val.1.tokens.length + n ≤ m →
      CodeSameTo f eof eof' n (statement eof ts).val (statement eof' ts').val)
    (hmore : nextKind (statement eof ts).val.2 ≠ .end → ∀ m n rest',
      (body eof (statement eof ts).val.2.tail).val.1.tokens.length + n ≤ m →
      AlikeTo f eof eof' m (statement eof ts).val.2.tail rest' →
      CodeSameTo f eof eof' n (body eof (statement eof ts).val.2.tail).val (body eof' rest').val)
    (hm : (body eof ts).val.1.tokens.length + n ≤ m) :
    CodeSameTo f eof eof' n (body eof ts).val (body eof' ts').val := by
  have hstart' : ¬ (nextKind ts' = .end ∨ nextKind ts' = .eof) := h.nextKind_eq hf heof heof' ▸ hstart
  by_cases hend : nextKind (statement eof ts).val.2 = .end
  · rw [body_last hstart rfl hend] at hm ⊢
    obtain ⟨htree, hrest⟩ := hs n hm
    have hkind := hrest.nextKind_eq hf heof heof'
    rw [body_last hstart' rfl (hkind ▸ hend)]
    exact ⟨congrArg Code.last htree, hrest⟩
  · rw [body_more hstart hend] at hm ⊢
    simp only [Code.tokens, List.length_append, List.length_cons] at hm
    obtain ⟨htree, hrest⟩ := hs ((body eof (statement eof ts).val.2.tail).val.1.tokens.length + n + 1) (by omega)
    have hkind := hrest.nextKind_eq hf heof heof'
    obtain ⟨hb, hlast⟩ := hmore hend _ n _ (Nat.le_refl _) (hrest.tail (Nat.lt_succ_self _))
    rw [body_more hstart' (hkind ▸ hend)]
    refine ⟨?_, hlast⟩
    simp only [Code.map]
    rw [htree, hrest.head, hb]

/-- Statements and the insides of blocks by induction along the way in which the first one is read. -/
theorem statement_alike :
    (∀ ts m n ts', (statement eof ts).val.1.tokens.length + n ≤ m → AlikeTo f eof eof' m ts ts' →
      CodeSameTo f eof eof' n (statement eof ts).val (statement eof' ts').val) ∧
    (∀ ts m n ts', (body eof ts).val.1.tokens.length + n ≤ m → AlikeTo f eof eof' m ts ts' →
      CodeSameTo f eof eof' n (body eof ts).val (body eof' ts').val) := by
  apply Parse.statement.mutual_induct eof
  · intro m n ts' hm h
    have hk := h.nextKind_eq hf heof heof'
    rw [statement_empty (by simp [nextKind, statementKinds]),
      statement_empty (by rw [← hk]; simp [nextKind, statementKinds])]
    exact ⟨rfl, h.mono (by omega)⟩
  · intro t rest hk m n ts' hm h
    rw [statement_declare hk] at hm ⊢
    simp only [Code.tokens, List.length_cons, List.length_nil] at hm
    obtain ⟨t', rest', rfl, hft, hkt, hmore⟩ := h.cons hf heof heof' (by rw [hk]; decide) (show m - 1 < m by omega)
    rw [statement_declare (hkt.trans hk)]
    refine ⟨?_, hmore.tail (by omega)⟩
    simp only [Code.map]
    rw [hft, hmore.head]
  · intro t rest hk m n ts' hm h
    rw [statement_assign hk] at hm ⊢
    simp only [Code.tokens, List.length_cons] at hm
    obtain ⟨t', rest', rfl, hft, hkt, hmore⟩ := h.cons hf heof heof' (by rw [hk]; decide) (show m - 1 < m by omega)
    rw [statement_assign (hkt.trans hk)]
    obtain ⟨htree, hrest⟩ :=
      (expression_alike hf heof heof').1 _ (m - 2) n _ (by omega) (hmore.tail (by omega))
    refine ⟨?_, hrest⟩
    simp only [Code.map]
    rw [hft, hmore.head, htree]
  · intro t rest hk
    dsimp only
    intro ih _ m n ts' hm h
    rw [statement_if hk] at hm ⊢
    simp only [Code.tokens, List.length_cons, List.length_append] at hm
    obtain ⟨t', rest', rfl, hft, hkt, hmore⟩ := h.cons hf heof heof' (by rw [hk]; decide) (show m - 1 < m by omega)
    rw [statement_if (hkt.trans hk)]
    obtain ⟨hcondition, hmiddle, hbehind⟩ := enclosed_alike hf heof heof'
      (n := (statement eof (enclosed eof rest).val.2).val.1.tokens.length + n) (by omega) hmore
    obtain ⟨haction, hrest⟩ := ih _ n _ (Nat.le_refl _) hbehind
    refine ⟨?_, hrest⟩
    simp only [Code.map]
    rw [hft, hcondition, hmiddle, haction]
  · intro t rest hk ih m n ts' hm h
    rw [statement_begin hk] at hm ⊢
    simp only [Code.tokens, List.length_cons, List.length_append, List.length_nil] at hm
    obtain ⟨t', rest', rfl, hft, hkt, hmore⟩ := h.cons hf heof heof' (by rw [hk]; decide) (show m - 1 < m by omega)
    rw [statement_begin (hkt.trans hk)]
    obtain ⟨hinside, hrest⟩ := ih (m - 1) (n + 1) rest' (by omega) hmore
    refine ⟨?_, hrest.tail (Nat.lt_succ_self n)⟩
    simp only [Code.map]
    rw [hft, hinside, hrest.head]
  · intro t rest hk
    dsimp only
    intro ih _ m n ts' hm h
    rw [statement_while hk] at hm ⊢
    simp only [Code.tokens, List.length_cons, List.length_append] at hm
    obtain ⟨t', rest', rfl, hft, hkt, hmore⟩ := h.cons hf heof heof' (by rw [hk]; decide) (show m - 1 < m by omega)
    rw [statement_while (hkt.trans hk)]
    obtain ⟨hcondition, hmiddle, hbehind⟩ := enclosed_alike hf heof heof'
      (n := (statement eof (enclosed eof rest).val.2).val.1.tokens.length + n) (by omega) hmore
    obtain ⟨haction, hrest⟩ := ih _ n _ (Nat.le_refl _) hbehind
    refine ⟨?_, hrest⟩
    simp only [Code.map]
    rw [hft, hcondition, hmiddle, haction]
  · intro t rest hk m n ts' hm h
    exact inout_alike hf heof heof' hk hm h
  · intro t rest h₁ h₂ h₃ h₄ h₅ h₆ m n ts' hm h
    have hk := h.nextKind_eq hf heof heof'
    have hstop : nextKind (t :: rest) ∉ statementKinds := by
      simp only [nextKind, statementKinds, List.mem_cons, List.not_mem_nil, or_false, not_or]
      exact ⟨h₁, h₂, h₃, h₄, h₅, h₆⟩
    rw [statement_empty hstop, statement_empty (hk ▸ hstop)]
    exact ⟨rfl, h.mono (by omega)⟩
  · intro m n ts' hm h
    have hk := h.nextKind_eq hf heof heof'
    rw [body_done (.inr rfl), body_done (.inr hk.symm)]
    exact ⟨rfl, h.mono (by omega)⟩
  · intro t rest hends m n ts' hm h
    have hk := h.nextKind_eq hf heof heof'
    have hstop : nextKind (t :: rest) = .end ∨ nextKind (t :: rest) = .eof := hends
    rw [body_done hstop, body_done (hk ▸ hstop)]
    exact ⟨rfl, h.mono (by omega)⟩
  · intro t rest hstart s hend ih m n ts' hm h
    exact body_alike hf heof heof' h hstart (fun n hn => ih m n ts' hn h) (fun hne => absurd hend hne) hm
  · intro t rest hstart s hend ih ihRest _ m n ts' hm h
    exact body_alike hf heof heof' h hstart (fun n hn => ih m n ts' hn h) (fun _ => ihRest) hm

/-- Sources that are the same to a function, up to the token behind the program in the first of them and some more, are
read into programs that are the same to it. -/
theorem program_alike (hm : (program eof ts).1.tokens.length + n ≤ m) (h : AlikeTo f eof eof' m ts ts') :
    (program eof ts).1.map f = (program eof' ts').1.map f ∧
      AlikeTo f eof eof' n (program eof ts).2 (program eof' ts').2 := by
  have hkind := h.nextKind_eq hf heof heof'
  by_cases hk : nextKind ts = .begin
  · cases ts with
    | nil => cases hk
    | cons t rest =>
      have ht : t.kind = .begin := hk
      rw [program_block ht] at hm ⊢
      simp only [Program.tokens, List.length_cons, List.length_append, List.length_nil] at hm
      obtain ⟨t', rest', rfl, hft, hkt, hmore⟩ := h.cons hf heof heof' (by rw [ht]; decide) (show m - 1 < m by omega)
      obtain ⟨hinside, hrest⟩ := (statement_alike hf heof heof').2 rest (m - 1) (n + 2) rest' (by omega) hmore
      have hbehind := hrest.tail (show n + 1 < n + 2 by omega)
      rw [program_block (hkt.trans ht)]
      refine ⟨?_, hbehind.tail (Nat.lt_succ_self n)⟩
      simp only [Program.map]
      rw [hft, hinside, hrest.head, hbehind.head]
  · rw [program_bare hk] at hm ⊢
    rw [program_bare (hkind ▸ hk)]
    simp only [Program.tokens, List.length_cons, List.length_nil] at hm
    exact ⟨congrArg Program.bare h.head, h.tail (by omega)⟩

end

end Parse

/-- The program and the tokens behind it, read from sources that are the same to a function up to some token behind the
program in the first of them. -/
theorem TokenSource.parse_alikeTo {f : Token → Token} (hf : Parse.Telling f) {s s' : TokenSource} {n : Nat}
    (h : ∀ i ≤ s.parse.1.tokens.length + n, f (s.token i) = f (s'.token i)) :
    s.parse.1.map f = s'.parse.1.map f ∧ Parse.AlikeTo f s.eof s'.eof n s.parse.2 s'.parse.2 :=
  Parse.program_alike hf rfl rfl (Nat.le_refl _) h

/-- The program and the token behind it, read from sources that are the same to a function. -/
theorem TokenSource.parse_alike {f : Token → Token} (hf : Parse.Telling f) {s s' : TokenSource}
    (h : ∀ n, f (s.token n) = f (s'.token n)) :
    s.parse.1.map f = s'.parse.1.map f ∧ Parse.AlikeTo f s.eof s'.eof 0 s.parse.2 s'.parse.2 :=
  parse_alikeTo hf fun i _ => h i

end AlgolMips
