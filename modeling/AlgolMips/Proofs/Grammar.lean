import AlgolMips.Tree

/-!
# The grammar

Two grammars over lists of tokens. The documented one asks for every factor and for the target of every `read`; the
accepted one lets them be left out. Apart from that they agree:

    program    : [ block ] '.'
    block      : 'begin' statement { ';' statement } 'end'
    statement  : [ type identifier | identifier ':=' expression | 'if' expression 'then' statement
                 | 'while' expression 'do' statement | block | read '(' identifier ')' | write '(' expression ')' ]
    expression : term { addOp term }
    term       : relation { mulOp relation }
    relation   : factor [ relOp factor ]
    factor     : identifier | literal | '!' factor | '(' expression ')'

As a statement may be empty, the separator in front of `end` may be written or left out.

A list of tokens is derivable exactly when it is spelled by a valid tree (`derives_iff_spelled`), so that what is proved
by recursion on trees holds of derivable lists.
-/

namespace AlgolMips

/-! ## Derivations -/

inductive Grammar where
  | documented
  | accepted
deriving DecidableEq

/-- What a list of tokens can be derived as. -/
inductive Category where
  | program
  | block
  | sequence
  | statement
  | expr (l : Level)
deriving DecidableEq

/-- `Derives g c ts`: the grammar `g` derives the tokens `ts` from the category `c`. -/
inductive Derives (g : Grammar) : Category → List Token → Prop where
  | bare {stop : Token} : stop.kind = .dot → Derives g .program [stop]
  | program {b : List Token} {stop : Token} :
      Derives g .block b → stop.kind = .dot → Derives g .program (b ++ [stop])
  | block {opening closing : Token} {inside : List Token} :
      opening.kind = .begin → Derives g .sequence inside → closing.kind = .end →
      Derives g .block (opening :: (inside ++ [closing]))
  | single {s : List Token} : Derives g .statement s → Derives g .sequence s
  | more {s rest : List Token} {separator : Token} :
      Derives g .statement s → separator.kind = .semi → Derives g .sequence rest →
      Derives g .sequence (s ++ separator :: rest)
  | empty : Derives g .statement []
  | declaration {type name : Token} :
      type.kind = .typeName → name.kind = .ident → Derives g .statement [type, name]
  | assignment {target sign : Token} {value : List Token} :
      target.kind = .ident → sign.kind = .assign → Derives g (.expr .expression) value →
      Derives g .statement (target :: sign :: value)
  | conditional {opening middle : Token} {condition action : List Token} :
      opening.kind = .if → Derives g (.expr .expression) condition → middle.kind = .then →
      Derives g .statement action → Derives g .statement (opening :: (condition ++ middle :: action))
  | loop {opening middle : Token} {condition action : List Token} :
      opening.kind = .while → Derives g (.expr .expression) condition → middle.kind = .do →
      Derives g .statement action → Derives g .statement (opening :: (condition ++ middle :: action))
  | nested {b : List Token} : Derives g .block b → Derives g .statement b
  | read {keyword opening target closing : Token} :
      keyword.kind = .inout → keyword.value = "read" → opening.kind = .lparen → target.kind = .ident →
      closing.kind = .rparen → Derives g .statement [keyword, opening, target, closing]
  | readNothing {keyword opening closing : Token} :
      g = .accepted → keyword.kind = .inout → keyword.value = "read" → opening.kind = .lparen →
      closing.kind = .rparen → Derives g .statement [keyword, opening, closing]
  | write {keyword opening closing : Token} {value : List Token} :
      keyword.kind = .inout → keyword.value ≠ "read" → opening.kind = .lparen →
      Derives g (.expr .expression) value → closing.kind = .rparen →
      Derives g .statement (keyword :: opening :: (value ++ [closing]))
  | term {ts : List Token} : Derives g (.expr .term) ts → Derives g (.expr .expression) ts
  | add {left right : List Token} {op : Token} :
      Derives g (.expr .expression) left → op.kind = .addOp → Derives g (.expr .term) right →
      Derives g (.expr .expression) (left ++ op :: right)
  | relation {ts : List Token} : Derives g (.expr .relation) ts → Derives g (.expr .term) ts
  | mul {left right : List Token} {op : Token} :
      Derives g (.expr .term) left → op.kind = .mulOp → Derives g (.expr .relation) right →
      Derives g (.expr .term) (left ++ op :: right)
  | factor {ts : List Token} : Derives g (.expr .factor) ts → Derives g (.expr .relation) ts
  | compare {left right : List Token} {op : Token} :
      Derives g (.expr .factor) left → op.kind = .relOp → Derives g (.expr .factor) right →
      Derives g (.expr .relation) (left ++ op :: right)
  | missing : g = .accepted → Derives g (.expr .factor) []
  | name {tok : Token} : tok.kind = .ident → Derives g (.expr .factor) [tok]
  | literal {tok : Token} : tok.kind = .literal → Derives g (.expr .factor) [tok]
  | negation {op : Token} {ts : List Token} :
      op.kind = .not → Derives g (.expr .factor) ts → Derives g (.expr .factor) (op :: ts)
  | group {opening closing : Token} {ts : List Token} :
      opening.kind = .lparen → Derives g (.expr .expression) ts → closing.kind = .rparen →
      Derives g (.expr .factor) (opening :: (ts ++ [closing]))

/-! ## Trees and the tokens that spell them -/

/-- The tokens of an expression. -/
def Expr.tokens : {l : Level} → Expr l → List Token
  | _, .add left op right => left.tokens ++ op :: right.tokens
  | _, .term e => e.tokens
  | _, .mul left op right => left.tokens ++ op :: right.tokens
  | _, .relation e => e.tokens
  | _, .compare left op right => left.tokens ++ op :: right.tokens
  | _, .factor e => e.tokens
  | _, .missing => []
  | _, .name tok => [tok]
  | _, .literal tok => [tok]
  | _, .negation op e => op :: e.tokens
  | _, .group opening e closing => opening :: (e.tokens ++ [closing])

/-- Every token of an expression is of the kind that the grammar asks for in its place. -/
def Expr.Valid : {l : Level} → Expr l → Prop
  | _, .add left op right => left.Valid ∧ op.kind = .addOp ∧ right.Valid
  | _, .term e => e.Valid
  | _, .mul left op right => left.Valid ∧ op.kind = .mulOp ∧ right.Valid
  | _, .relation e => e.Valid
  | _, .compare left op right => left.Valid ∧ op.kind = .relOp ∧ right.Valid
  | _, .factor e => e.Valid
  | _, .missing => True
  | _, .name tok => tok.kind = .ident
  | _, .literal tok => tok.kind = .literal
  | _, .negation op e => op.kind = .not ∧ e.Valid
  | _, .group opening e closing => opening.kind = .lparen ∧ e.Valid ∧ closing.kind = .rparen

/-- No factor of an expression is missing. -/
def Expr.Complete : {l : Level} → Expr l → Prop
  | _, .add left _ right => left.Complete ∧ right.Complete
  | _, .term e => e.Complete
  | _, .mul left _ right => left.Complete ∧ right.Complete
  | _, .relation e => e.Complete
  | _, .compare left _ right => left.Complete ∧ right.Complete
  | _, .factor e => e.Complete
  | _, .missing => False
  | _, .name _ => True
  | _, .literal _ => True
  | _, .negation _ e => e.Complete
  | _, .group _ e _ => e.Complete

/-- The tokens of a statement or of the inside of a block. -/
def Code.tokens : {x : Extent} → Code x → List Token
  | _, .empty => []
  | _, .declare type name => [type, name]
  | _, .assign target sign value => target :: sign :: value.tokens
  | _, .ifThen opening condition middle action => opening :: (condition.tokens ++ middle :: action.tokens)
  | _, .whileDo opening condition middle action => opening :: (condition.tokens ++ middle :: action.tokens)
  | _, .block opening inside closing => opening :: (inside.tokens ++ [closing])
  | _, .read keyword opening target closing => keyword :: opening :: (target.toList ++ [closing])
  | _, .write keyword opening value closing => keyword :: opening :: (value.tokens ++ [closing])
  | _, .done => []
  | _, .last s => s.tokens
  | _, .next s separator rest => s.tokens ++ separator :: rest.tokens

/-- Every token is of the kind that the grammar asks for in its place. A block without a last statement ends in `done`,
so that no list of tokens has two valid trees. -/
def Code.Valid : {x : Extent} → Code x → Prop
  | _, .empty => True
  | _, .declare type name => type.kind = .typeName ∧ name.kind = .ident
  | _, .assign target sign value => target.kind = .ident ∧ sign.kind = .assign ∧ value.Valid
  | _, .ifThen opening condition middle action =>
    opening.kind = .if ∧ condition.Valid ∧ middle.kind = .then ∧ action.Valid
  | _, .whileDo opening condition middle action =>
    opening.kind = .while ∧ condition.Valid ∧ middle.kind = .do ∧ action.Valid
  | _, .block opening inside closing => opening.kind = .begin ∧ inside.Valid ∧ closing.kind = .end
  | _, .read keyword opening target closing =>
    keyword.kind = .inout ∧ keyword.value = "read" ∧ opening.kind = .lparen ∧
      (∀ tok ∈ target, tok.kind = .ident) ∧ closing.kind = .rparen
  | _, .write keyword opening value closing =>
    keyword.kind = .inout ∧ keyword.value ≠ "read" ∧ opening.kind = .lparen ∧ value.Valid ∧ closing.kind = .rparen
  | _, .done => True
  | _, .last s => s.Valid ∧ s ≠ .empty
  | _, .next s separator rest => s.Valid ∧ separator.kind = .semi ∧ rest.Valid

/-- No factor and no target of a `read` is missing. -/
def Code.Complete : {x : Extent} → Code x → Prop
  | _, .empty => True
  | _, .declare _ _ => True
  | _, .assign _ _ value => value.Complete
  | _, .ifThen _ condition _ action => condition.Complete ∧ action.Complete
  | _, .whileDo _ condition _ action => condition.Complete ∧ action.Complete
  | _, .block _ inside _ => inside.Complete
  | _, .read _ _ target _ => target.isSome
  | _, .write _ _ value _ => value.Complete
  | _, .done => True
  | _, .last s => s.Complete
  | _, .next s _ rest => s.Complete ∧ rest.Complete

namespace Program

def tokens : Program → List Token
  | bare stop => [stop]
  | block opening inside closing stop => opening :: (inside.tokens ++ [closing, stop])

def Valid : Program → Prop
  | bare stop => stop.kind = .dot
  | block opening inside closing stop =>
    opening.kind = .begin ∧ inside.Valid ∧ closing.kind = .end ∧ stop.kind = .dot

def Complete : Program → Prop
  | bare _ => True
  | block _ inside _ _ => inside.Complete

end Program

/-! ## Derivable lists are the spellings of valid trees -/

namespace Grammar

/-- A grammar asks for complete trees or takes all of them. -/
def Admits (g : Grammar) (complete : Prop) : Prop := g = .documented → complete

@[simp] theorem admits_true (g : Grammar) : g.Admits True := fun _ => trivial

@[simp] theorem admits_and (g : Grammar) (p q : Prop) : g.Admits (p ∧ q) ↔ g.Admits p ∧ g.Admits q :=
  forall_and

@[simp] theorem admits_false (g : Grammar) : g.Admits False ↔ g = .accepted := by
  cases g <;> simp [Admits]

/-- The tokens of a valid tree of a category, complete where the grammar asks for that. -/
def Spells (g : Grammar) : Category → List Token → Prop
  | .program, ts => ∃ p : Program, p.Valid ∧ g.Admits p.Complete ∧ p.tokens = ts
  | .block, ts => ∃ opening inside closing, (Code.block opening inside closing).Valid ∧
      g.Admits inside.Complete ∧ (Code.block opening inside closing).tokens = ts
  | .sequence, ts => ∃ b : Body, b.Valid ∧ g.Admits b.Complete ∧ b.tokens = ts
  | .statement, ts => ∃ s : Stmt, s.Valid ∧ g.Admits s.Complete ∧ s.tokens = ts
  | .expr l, ts => ∃ e : Expr l, e.Valid ∧ g.Admits e.Complete ∧ e.tokens = ts

end Grammar

open Grammar

/-- The inside of a block that a statement alone makes up. -/
def Code.alone : Stmt → Body
  | .empty => .done
  | s => .last s

theorem Code.alone_tokens (s : Stmt) : s.alone.tokens = s.tokens := by
  cases s <;> rfl

theorem Code.alone_valid {s : Stmt} (h : s.Valid) : s.alone.Valid := by
  cases s with
  | empty => trivial
  | _ => exact ⟨h, nofun⟩

theorem Code.alone_complete {s : Stmt} (h : s.Complete) : s.alone.Complete := by
  cases s with
  | empty => trivial
  | _ => exact h

theorem Derives.spells {g : Grammar} {c : Category} {ts : List Token} (h : Derives g c ts) : g.Spells c ts := by
  induction h with
  | @bare stop hs => exact ⟨.bare stop, hs, admits_true g, rfl⟩
  | @program b stop _ hs ih =>
    obtain ⟨opening, inside, closing, ⟨ho, hi, hc⟩, ha, rfl⟩ := ih
    exact ⟨.block opening inside closing stop, ⟨ho, hi, hc, hs⟩, ha, by simp [Program.tokens, Code.tokens]⟩
  | @block opening closing inside ho _ hc ih =>
    obtain ⟨b, hb, ha, rfl⟩ := ih
    exact ⟨opening, b, closing, ⟨ho, hb, hc⟩, ha, rfl⟩
  | single _ ih =>
    obtain ⟨s, hs, ha, rfl⟩ := ih
    exact ⟨s.alone, Code.alone_valid hs, fun hg => Code.alone_complete (ha hg), Code.alone_tokens s⟩
  | @more _ _ separator _ hsep _ ih₁ ih₂ =>
    obtain ⟨s, hs, has, rfl⟩ := ih₁
    obtain ⟨b, hb, hab, rfl⟩ := ih₂
    exact ⟨.next s separator b, ⟨hs, hsep, hb⟩, (admits_and ..).2 ⟨has, hab⟩, rfl⟩
  | empty => exact ⟨.empty, trivial, admits_true g, rfl⟩
  | @declaration type name ht hn => exact ⟨.declare type name, ⟨ht, hn⟩, admits_true g, rfl⟩
  | @assignment target sign _ ht hs _ ih =>
    obtain ⟨e, he, ha, rfl⟩ := ih
    exact ⟨.assign target sign e, ⟨ht, hs, he⟩, ha, rfl⟩
  | @conditional opening middle _ _ ho _ hm _ ih₁ ih₂ =>
    obtain ⟨e, he, hae, rfl⟩ := ih₁
    obtain ⟨s, hs, has, rfl⟩ := ih₂
    exact ⟨.ifThen opening e middle s, ⟨ho, he, hm, hs⟩, (admits_and ..).2 ⟨hae, has⟩, rfl⟩
  | @loop opening middle _ _ ho _ hm _ ih₁ ih₂ =>
    obtain ⟨e, he, hae, rfl⟩ := ih₁
    obtain ⟨s, hs, has, rfl⟩ := ih₂
    exact ⟨.whileDo opening e middle s, ⟨ho, he, hm, hs⟩, (admits_and ..).2 ⟨hae, has⟩, rfl⟩
  | nested _ ih =>
    obtain ⟨opening, inside, closing, hv, ha, rfl⟩ := ih
    exact ⟨.block opening inside closing, hv, ha, rfl⟩
  | @read keyword opening target closing hk hr ho ht hc =>
    refine ⟨.read keyword opening (some target) closing, ⟨hk, hr, ho, ?_, hc⟩, fun _ => rfl, rfl⟩
    rintro tok ⟨⟩
    exact ht
  | @readNothing keyword opening closing hg hk hr ho hc =>
    refine ⟨.read keyword opening none closing, ⟨hk, hr, ho, fun _ h => absurd h (Option.not_mem_none _), hc⟩, ?_, rfl⟩
    simpa [Code.Complete] using hg
  | @write keyword opening closing _ hk hr ho _ hc ih =>
    obtain ⟨e, he, ha, rfl⟩ := ih
    exact ⟨.write keyword opening e closing, ⟨hk, hr, ho, he, hc⟩, ha, rfl⟩
  | term _ ih =>
    obtain ⟨e, he, ha, rfl⟩ := ih
    exact ⟨.term e, he, ha, rfl⟩
  | @add _ _ op _ hop _ ih₁ ih₂ =>
    obtain ⟨l, hl, hal, rfl⟩ := ih₁
    obtain ⟨r, hr, har, rfl⟩ := ih₂
    exact ⟨.add l op r, ⟨hl, hop, hr⟩, (admits_and ..).2 ⟨hal, har⟩, rfl⟩
  | relation _ ih =>
    obtain ⟨e, he, ha, rfl⟩ := ih
    exact ⟨.relation e, he, ha, rfl⟩
  | @mul _ _ op _ hop _ ih₁ ih₂ =>
    obtain ⟨l, hl, hal, rfl⟩ := ih₁
    obtain ⟨r, hr, har, rfl⟩ := ih₂
    exact ⟨.mul l op r, ⟨hl, hop, hr⟩, (admits_and ..).2 ⟨hal, har⟩, rfl⟩
  | factor _ ih =>
    obtain ⟨e, he, ha, rfl⟩ := ih
    exact ⟨.factor e, he, ha, rfl⟩
  | @compare _ _ op _ hop _ ih₁ ih₂ =>
    obtain ⟨l, hl, hal, rfl⟩ := ih₁
    obtain ⟨r, hr, har, rfl⟩ := ih₂
    exact ⟨.compare l op r, ⟨hl, hop, hr⟩, (admits_and ..).2 ⟨hal, har⟩, rfl⟩
  | missing hg => exact ⟨.missing, trivial, (admits_false g).2 hg, rfl⟩
  | @name tok ht => exact ⟨.name tok, ht, admits_true g, rfl⟩
  | @literal tok ht => exact ⟨.literal tok, ht, admits_true g, rfl⟩
  | @negation op _ hop _ ih =>
    obtain ⟨e, he, ha, rfl⟩ := ih
    exact ⟨.negation op e, ⟨hop, he⟩, ha, rfl⟩
  | @group opening closing _ ho _ hc ih =>
    obtain ⟨e, he, ha, rfl⟩ := ih
    exact ⟨.group opening e closing, ⟨ho, he, hc⟩, ha, rfl⟩

theorem Expr.derives {g : Grammar} {l : Level} (e : Expr l) (hv : e.Valid) (ha : g.Admits e.Complete) :
    Derives g (.expr l) e.tokens := by
  induction e with
  | add left op right ihl ihr =>
    obtain ⟨hal, har⟩ := (admits_and ..).1 ha
    exact .add (ihl hv.1 hal) hv.2.1 (ihr hv.2.2 har)
  | term e ih => exact .term (ih hv ha)
  | mul left op right ihl ihr =>
    obtain ⟨hal, har⟩ := (admits_and ..).1 ha
    exact .mul (ihl hv.1 hal) hv.2.1 (ihr hv.2.2 har)
  | relation e ih => exact .relation (ih hv ha)
  | compare left op right ihl ihr =>
    obtain ⟨hal, har⟩ := (admits_and ..).1 ha
    exact .compare (ihl hv.1 hal) hv.2.1 (ihr hv.2.2 har)
  | factor e ih => exact .factor (ih hv ha)
  | missing => exact .missing ((admits_false g).1 ha)
  | name tok => exact .name hv
  | literal tok => exact .literal hv
  | negation op e ih => exact .negation hv.1 (ih hv.2 ha)
  | group opening e closing ih => exact .group hv.1 (ih hv.2.1 ha) hv.2.2

/-- The category of what a tree stands for. -/
def Extent.category : Extent → Category
  | statement => .statement
  | body => .sequence

theorem Code.derives {g : Grammar} {x : Extent} (c : Code x) (hv : c.Valid) (ha : g.Admits c.Complete) :
    Derives g x.category c.tokens := by
  induction c with
  | empty => exact .empty
  | declare type name => exact .declaration hv.1 hv.2
  | assign target sign value => exact .assignment hv.1 hv.2.1 (value.derives hv.2.2 ha)
  | ifThen opening condition middle action ih =>
    obtain ⟨hac, haa⟩ := (admits_and ..).1 ha
    exact .conditional hv.1 (condition.derives hv.2.1 hac) hv.2.2.1 (ih hv.2.2.2 haa)
  | whileDo opening condition middle action ih =>
    obtain ⟨hac, haa⟩ := (admits_and ..).1 ha
    exact .loop hv.1 (condition.derives hv.2.1 hac) hv.2.2.1 (ih hv.2.2.2 haa)
  | block opening inside closing ih => exact .nested (.block hv.1 (ih hv.2.1 ha) hv.2.2)
  | read keyword opening target closing =>
    obtain ⟨hk, hr, ho, ht, hc⟩ := hv
    cases target with
    | none => exact .readNothing (by simpa [Code.Complete] using ha) hk hr ho hc
    | some tok => exact .read hk hr ho (ht tok rfl) hc
  | write keyword opening value closing =>
    obtain ⟨hk, hr, ho, he, hc⟩ := hv
    exact .write hk hr ho (value.derives he ha) hc
  | done => exact .single .empty
  | last s ih => exact .single (ih hv.1 ha)
  | next s separator rest ihs ihr =>
    obtain ⟨has, har⟩ := (admits_and ..).1 ha
    exact .more (ihs hv.1 has) hv.2.1 (ihr hv.2.2 har)

theorem Program.derives {g : Grammar} (p : Program) (hv : p.Valid) (ha : g.Admits p.Complete) :
    Derives g .program p.tokens := by
  cases p with
  | bare stop => exact .bare hv
  | block opening inside closing stop =>
    obtain ⟨ho, hi, hc, hs⟩ := hv
    have h := Derives.program (.block ho (inside.derives hi ha) hc) hs
    simpa [Program.tokens] using h

/-- A grammar derives the tokens of its valid trees and no others. -/
theorem derives_iff_spelled {g : Grammar} {ts : List Token} :
    Derives g .program ts ↔ ∃ p : Program, p.Valid ∧ g.Admits p.Complete ∧ p.tokens = ts := by
  constructor
  · exact Derives.spells
  · rintro ⟨p, hv, ha, rfl⟩
    exact p.derives hv ha

end AlgolMips
