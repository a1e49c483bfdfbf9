import AlgolMips.Lowering.Event
import AlgolMips.Proofs.Grammar

/-!
# Parse trees and leftmost derivations

The productions of the grammar under their names, with what may stand on the right of each of them:

    program     : block '.'
    statement   : [ declaration | assignment | conditional | loop | block | inout ]
    declaration : TYPE IDENT
    assignment  : reference ':=' expression
    conditional : 'if' expression 'then' statement
    loop        : 'while' expression 'do' statement
    block       : 'begin' { statement ';' } 'end'
    inout       : IO '(' reference ')' | IO '(' expression ')'
    expression  : term { ADDOP term }
    term        : relation { MULOP relation }
    relation    : factor [ RELOP factor ]
    factor      : reference | LITERAL | '!' factor | '(' expression ')'
    reference   : IDENT

A parse tree has a node for every production that is made and a leaf for every token. Its productions in preorder are a
leftmost derivation of its tokens (`Forest.leftmost`). A syntax tree keeps its operators and their operands together;
`Program.forest` is the parse tree that it stands for, and a complete valid program stands for one that follows the
grammar (`Program.conforms_forest`).
-/

namespace AlgolMips

/-! ## Productions -/

/-- A token, or a production that is still to be made. -/
inductive Symbol where
  | token (t : Token)
  | rule (r : Rule)

/-- One operand, or several with an operator between any two of them. -/
inductive Iterated (operator : Kind) (operand : Rule) : List Symbol → Prop where
  | one : Iterated operator operand [.rule operand]
  | more {symbols : List Symbol} {op : Token} :
      Iterated operator operand symbols → op.kind = operator →
      Iterated operator operand (symbols ++ [.token op, .rule operand])

/-- Statements with a separator behind each of them, which the last one may go without. -/
inductive Separated : List Symbol → Prop where
  | none : Separated []
  | last : Separated [.rule .statement]
  | more {separator : Token} {symbols : List Symbol} :
      separator.kind = .semi → Separated symbols → Separated (.rule .statement :: .token separator :: symbols)

/-- `Production r symbols`: the symbols may stand on the right of the production `r`. -/
inductive Production : Rule → List Symbol → Prop where
  | program {stop : Token} : stop.kind = .dot → Production .program [.rule .block, .token stop]
  | noStatement : Production .statement []
  | statement {r : Rule} :
      r ∈ [.declaration, .assignment, .conditional, .loop, .block, .inout] → Production .statement [.rule r]
  | declaration {type name : Token} :
      type.kind = .typeName → name.kind = .ident → Production .declaration [.token type, .token name]
  | assignment {sign : Token} :
      sign.kind = .assign → Production .assignment [.rule .reference, .token sign, .rule .expression]
  | conditional {opening middle : Token} : opening.kind = .if → middle.kind = .then →
      Production .conditional [.token opening, .rule .expression, .token middle, .rule .statement]
  | loop {opening middle : Token} : opening.kind = .while → middle.kind = .do →
      Production .loop [.token opening, .rule .expression, .token middle, .rule .statement]
  | block {opening closing : Token} {inside : List Symbol} :
      opening.kind = .begin → Separated inside → closing.kind = .end →
      Production .block (.token opening :: (inside ++ [.token closing]))
  | read {keyword opening closing : Token} :
      keyword.kind = .inout → keyword.value = "read" → opening.kind = .lparen → closing.kind = .rparen →
      Production .inout [.token keyword, .token opening, .rule .reference, .token closing]
  | write {keyword opening closing : Token} :
      keyword.kind = .inout → keyword.value ≠ "read" → opening.kind = .lparen → closing.kind = .rparen →
      Production .inout [.token keyword, .token opening, .rule .expression, .token closing]
  | expression {symbols : List Symbol} : Iterated .addOp .term symbols → Production .expression symbols
  | term {symbols : List Symbol} : Iterated .mulOp .relation symbols → Production .term symbols
  | factor : Production .relation [.rule .factor]
  | compare {op : Token} : op.kind = .relOp → Production .relation [.rule .factor, .token op, .rule .factor]
  | name : Production .factor [.rule .reference]
  | literal {tok : Token} : tok.kind = .literal → Production .factor [.token tok]
  | negation {op : Token} : op.kind = .not → Production .factor [.token op, .rule .factor]
  | group {opening closing : Token} : opening.kind = .lparen → closing.kind = .rparen →
      Production .factor [.token opening, .rule .expression, .token closing]
  | reference {tok : Token} : tok.kind = .ident → Production .reference [.token tok]

/-- `Leftmost rules symbols tokens`: making the productions `rules` in this order, each at the leftmost place where one is
still to be made, turns the symbols into the tokens. Tokens in front of that place are done with and are not looked at
again. -/
inductive Leftmost : List Rule → List Symbol → List Token → Prop where
  | done : Leftmost [] [] []
  | token {rules : List Rule} {t : Token} {symbols : List Symbol} {tokens : List Token} :
      Leftmost rules symbols tokens → Leftmost rules (.token t :: symbols) (t :: tokens)
  | expand {r : Rule} {right : List Symbol} {rules : List Rule} {symbols : List Symbol} {tokens : List Token} :
      Production r right → Leftmost rules (right ++ symbols) tokens → Leftmost (r :: rules) (.rule r :: symbols) tokens

/-! ## Parse trees -/

/-- Parse trees side by side: tokens, and productions with the trees of their right sides. -/
inductive Forest where
  | nil
  | leaf (t : Token) (rest : Forest)
  | node (r : Rule) (children rest : Forest)

namespace Forest

protected def append : Forest → Forest → Forest
  | nil, g => g
  | leaf t rest, g => leaf t (rest.append g)
  | node r children rest, g => node r children (rest.append g)

instance : Append Forest := ⟨Forest.append⟩

@[simp] theorem nil_append (g : Forest) : nil ++ g = g := rfl

@[simp] theorem leaf_append (t : Token) (f g : Forest) : leaf t f ++ g = leaf t (f ++ g) := rfl

@[simp] theorem node_append (r : Rule) (children f g : Forest) : node r children f ++ g = node r children (f ++ g) := rfl

/-- The roots. -/
@[simp] def symbols : Forest → List Symbol
  | nil => []
  | leaf t rest => .token t :: rest.symbols
  | node r _ rest => .rule r :: rest.symbols

/-- The tokens at the leaves. -/
@[simp] def frontier : Forest → List Token
  | nil => []
  | leaf t rest => t :: rest.frontier
  | node _ children rest => children.frontier ++ rest.frontier

/-- The productions, each one in front of those below it. -/
@[simp] def preorder : Forest → List Rule
  | nil => []
  | leaf _ rest => rest.preorder
  | node r children rest => r :: (children.preorder ++ rest.preorder)

/-- At every node stands a production of the grammar. -/
@[simp] def Conforms : Forest → Prop
  | nil => True
  | leaf _ rest => rest.Conforms
  | node r children rest => Production r children.symbols ∧ children.Conforms ∧ rest.Conforms

@[simp] theorem symbols_append (f g : Forest) : (f ++ g).symbols = f.symbols ++ g.symbols := by
  induction f with
  | nil => rfl
  | leaf t rest ih => simp [ih]
  | node r children rest _ ih => simp [ih]

@[simp] theorem frontier_append (f g : Forest) : (f ++ g).frontier = f.frontier ++ g.frontier := by
  induction f with
  | nil => rfl
  | leaf t rest ih => simp [ih]
  | node r children rest _ ih => simp [ih]

@[simp] theorem preorder_append (f g : Forest) : (f ++ g).preorder = f.preorder ++ g.preorder := by
  induction f with
  | nil => rfl
  | leaf t rest ih => simp [ih]
  | node r children rest _ ih => simp [ih]

@[simp] theorem conforms_append (f g : Forest) : (f ++ g).Conforms ↔ f.Conforms ∧ g.Conforms := by
  induction f with
  | nil => simp
  | leaf t rest ih => simp [ih]
  | node r children rest _ ih => simp [ih, and_assoc]

/-- The preorder of parse trees derives their tokens from their roots, in front of whatever else is derived. -/
theorem leftmost {f : Forest} (hf : f.Conforms) {rules : List Rule} {symbols : List Symbol} {tokens : List Token}
    (h : Leftmost rules symbols tokens) :
    Leftmost (f.preorder ++ rules) (f.symbols ++ symbols) (f.frontier ++ tokens) := by
  induction f generalizing rules symbols tokens with
  | nil => exact h
  | leaf t rest ih => exact .token (ih hf h)
  | node r children rest ihc ihr =>
    obtain ⟨hr, hc, hrest⟩ := hf
    simp only [preorder, Forest.symbols, frontier, List.cons_append, List.append_assoc]
    exact .expand hr (ihc hc (ihr hrest h))

/-- A statement of one of the sorts that are not empty. -/
def statement (r : Rule) (children : Forest) : Forest := node .statement (node r children nil) nil

@[simp] theorem symbols_statement (r : Rule) (children : Forest) :
    (statement r children).symbols = [.rule .statement] := rfl

@[simp] theorem frontier_statement (r : Rule) (children : Forest) :
    (statement r children).frontier = children.frontier := by
  simp [statement]

@[simp] theorem preorder_statement (r : Rule) (children : Forest) :
    (statement r children).preorder = .statement :: r :: children.preorder := by
  simp [statement]

theorem conforms_statement {r : Rule} {children : Forest}
    (hr : r ∈ [Rule.declaration, .assignment, .conditional, .loop, .block, .inout])
    (hright : Production r children.symbols) (hc : children.Conforms) : (statement r children).Conforms := by
  simp [statement, hright, hc, Production.statement hr]

end Forest

/-! ## The parse tree of a syntax tree -/

/-- The production of a layer of expressions. -/
@[simp] def Level.rule : Level → Rule
  | .expression => .expression
  | .term => .term
  | .relation => .relation
  | .factor => .factor

/-- What stands below the production of an expression. The operands of one layer stand side by side, however many there
are; the syntax tree nests them. -/
def Expr.children : {l : Level} → Expr l → Forest
  | _, .add left op right => left.children ++ .leaf op (.node .term right.children .nil)
  | _, .term e => .node .term e.children .nil
  | _, .mul left op right => left.children ++ .leaf op (.node .relation right.children .nil)
  | _, .relation e => .node .relation e.children .nil
  | _, .compare left op right => .node .factor left.children (.leaf op (.node .factor right.children .nil))
  | _, .factor e => .node .factor e.children .nil
  | _, .missing => .nil
  | _, .name tok => .node .reference (.leaf tok .nil) .nil
  | _, .literal tok => .leaf tok .nil
  | _, .negation op e => .leaf op (.node .factor e.children .nil)
  | _, .group opening e closing => .leaf opening (.node .expression e.children (.leaf closing .nil))

/-- The parse tree of a statement, or those of the statements inside a block with the separators between them. -/
def Code.forest : {x : Extent} → Code x → Forest
  | _, .empty => .node .statement .nil .nil
  | _, .declare type name => .statement .declaration (.leaf type (.leaf name .nil))
  | _, .assign target sign value =>
    .statement .assignment (.node .reference (.leaf target .nil) (.leaf sign (.node .expression value.children .nil)))
  | _, .ifThen opening condition middle action =>
    .statement .conditional (.leaf opening (.node .expression condition.children (.leaf middle action.forest)))
  | _, .whileDo opening condition middle action =>
    .statement .loop (.leaf opening (.node .expression condition.children (.leaf middle action.forest)))
  | _, .block opening inside closing => .statement .block (.leaf opening (inside.forest ++ .leaf closing .nil))
  | _, .read keyword opening target closing =>
    .statement .inout (.leaf keyword (.leaf opening
      (.node .reference (target.elim .nil fun tok => .leaf tok .nil) (.leaf closing .nil))))
  | _, .write keyword opening value closing =>
    .statement .inout (.leaf keyword (.leaf opening (.node .expression value.children (.leaf closing .nil))))
  | _, .done => .nil
  | _, .last s => s.forest
  | _, .next s separator rest => s.forest ++ .leaf separator rest.forest

/-- The parse tree of a program. -/
def Program.forest : Program → Forest
  | .bare stop => .node .program (.node .block .nil (.leaf stop .nil)) .nil
  | .block opening inside closing stop =>
    .node .program (.node .block (.leaf opening (inside.forest ++ .leaf closing .nil)) (.leaf stop .nil)) .nil

/-! ### Its tokens -/

@[simp] theorem Expr.frontier_children {l : Level} (e : Expr l) : e.children.frontier = e.tokens := by
  induction e with
  | add left op right ihl ihr => simp [Expr.children, Expr.tokens, ihl, ihr]
  | term e ih => simp [Expr.children, Expr.tokens, ih]
  | mul left op right ihl ihr => simp [Expr.children, Expr.tokens, ihl, ihr]
  | relation e ih => simp [Expr.children, Expr.tokens, ih]
  | compare left op right ihl ihr => simp [Expr.children, Expr.tokens, ihl, ihr]
  | factor e ih => simp [Expr.children, Expr.tokens, ih]
  | missing => rfl
  | name tok => rfl
  | literal tok => rfl
  | negation op e ih => simp [Expr.children, Expr.tokens, ih]
  | group opening e closing ih => simp [Expr.children, Expr.tokens, ih]

@[simp] theorem Code.frontier_forest {x : Extent} (c : Code x) : c.forest.frontier = c.tokens := by
  induction c with
  | empty => rfl
  | declare type name => rfl
  | assign target sign value => simp [Code.forest, Code.tokens]
  | ifThen opening condition middle action ih => simp [Code.forest, Code.tokens, ih]
  | whileDo opening condition middle action ih => simp [Code.forest, Code.tokens, ih]
  | block opening inside closing ih => simp [Code.forest, Code.tokens, ih]
  | read keyword opening target closing => cases target <;> rfl
  | write keyword opening value closing => simp [Code.forest, Code.tokens]
  | done => rfl
  | last s ih => exact ih
  | next s separator rest ihs ihr => simp [Code.forest, Code.tokens, ihs, ihr]

theorem Program.frontier_forest (p : Program) : p.forest.frontier = p.tokens := by
  cases p with
  | bare stop => rfl
  | block opening inside closing stop => simp [Program.forest, Program.tokens]

/-! ### Its productions follow the grammar -/

/-- Below an expression without a gap stands a right side of the production of its layer. -/
theorem Expr.conforms_children {l : Level} (e : Expr l) (hv : e.Valid) (hc : e.Complete) :
    Production l.rule e.children.symbols ∧ e.children.Conforms := by
  induction e with
  | add left op right ihl ihr =>
    obtain ⟨hleft, hl⟩ := ihl hv.1 hc.1
    have hright := ihr hv.2.2 hc.2
    -- one more operand than on the left
    cases hleft with
    | expression hmany =>
      exact ⟨.expression (by simpa [Expr.children] using hmany.more hv.2.1), by simpa [Expr.children, hl] using hright⟩
  | term e ih => exact ⟨.expression .one, by simpa [Expr.children] using ih hv hc⟩
  | mul left op right ihl ihr =>
    obtain ⟨hleft, hl⟩ := ihl hv.1 hc.1
    have hright := ihr hv.2.2 hc.2
    cases hleft with
    | term hmany =>
      exact ⟨.term (by simpa [Expr.children] using hmany.more hv.2.1), by simpa [Expr.children, hl] using hright⟩
  | relation e ih => exact ⟨.term .one, by simpa [Expr.children] using ih hv hc⟩
  | compare left op right ihl ihr =>
    obtain ⟨hleft, hl⟩ := ihl hv.1 hc.1
    obtain ⟨hright, hr⟩ := ihr hv.2.2 hc.2
    exact ⟨.compare hv.2.1, hleft, hl, hright, hr, trivial⟩
  | factor e ih => exact ⟨.factor, by simpa [Expr.children] using ih hv hc⟩
  | missing => exact hc.elim
  | name tok => exact ⟨.name, .reference hv, trivial, trivial⟩
  | literal tok => exact ⟨.literal hv, trivial⟩
  | negation op e ih => exact ⟨.negation hv.1, by simpa [Expr.children] using ih hv.2 hc⟩
  | group opening e closing ih => exact ⟨.group hv.1 hv.2.2, by simpa [Expr.children] using ih hv.2.1 hc⟩

@[simp] theorem Code.symbols_forest (s : Stmt) : s.forest.symbols = [.rule .statement] := by
  cases s <;> rfl

theorem Code.separated_forest : (b : Body) → b.Valid → Separated b.forest.symbols
  | .done, _ => .none
  | .last _, _ => by simpa [Code.forest] using Separated.last
  | .next _ _ rest, hv => by simpa [Code.forest] using .more hv.2.1 (rest.separated_forest hv.2.2)

theorem Code.conforms_forest {x : Extent} (c : Code x) (hv : c.Valid) (hc : c.Complete) : c.forest.Conforms := by
  induction c with
  | empty => exact ⟨.noStatement, trivial, trivial⟩
  | declare type name => exact Forest.conforms_statement (by decide) (.declaration hv.1 hv.2) trivial
  | assign target sign value =>
    obtain ⟨hright, hbelow⟩ := value.conforms_children hv.2.2 hc
    exact Forest.conforms_statement (by decide) (.assignment hv.2.1)
      ⟨.reference hv.1, trivial, hright, hbelow, trivial⟩
  | ifThen opening condition middle action ih =>
    obtain ⟨hright, hbelow⟩ := condition.conforms_children hv.2.1 hc.1
    exact Forest.conforms_statement (by decide) (by simpa using .conditional hv.1 hv.2.2.1)
      ⟨hright, hbelow, ih hv.2.2.2 hc.2⟩
  | whileDo opening condition middle action ih =>
    obtain ⟨hright, hbelow⟩ := condition.conforms_children hv.2.1 hc.1
    exact Forest.conforms_statement (by decide) (by simpa using .loop hv.1 hv.2.2.1)
      ⟨hright, hbelow, ih hv.2.2.2 hc.2⟩
  | block opening inside closing ih =>
    exact Forest.conforms_statement (by decide) (by simpa using .block hv.1 (inside.separated_forest hv.2.1) hv.2.2)
      (by simpa using ih hv.2.1 hc)
  | read keyword opening target closing =>
    obtain ⟨tok, rfl⟩ := Option.isSome_iff_exists.1 hc
    exact Forest.conforms_statement (by decide) (.read hv.1 hv.2.1 hv.2.2.1 hv.2.2.2.2)
      ⟨.reference (hv.2.2.2.1 tok rfl), trivial, trivial⟩
  | write keyword opening value closing =>
    obtain ⟨hright, hbelow⟩ := value.conforms_children hv.2.2.2.1 hc
    exact Forest.conforms_statement (by decide) (.write hv.1 hv.2.1 hv.2.2.1 hv.2.2.2.2)
      ⟨hright, hbelow, trivial⟩
  | done => trivial
  | last s ih => exact ih hv.1 hc
  | next s separator rest ihs ihr => simpa [Code.forest] using ⟨ihs hv.1 hc.1, ihr hv.2.2 hc.2⟩

/-- A program that has a block stands for a parse tree of the grammar. -/
theorem Program.conforms_forest {opening closing stop : Token} {inside : Body}
    (hv : (Program.block opening inside closing stop).Valid)
    (hc : (Program.block opening inside closing stop).Complete) :
    (Program.block opening inside closing stop).forest.Conforms := by
  have hblock := Production.block hv.1 (inside.separated_forest hv.2.1) hv.2.2.1
  exact ⟨.program hv.2.2.2, ⟨by simpa using hblock, by simpa using inside.conforms_forest hv.2.1 hc, trivial⟩, trivial⟩

end AlgolMips
