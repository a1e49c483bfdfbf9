import AlgolMips.Proofs.Emission
import AlgolMips.Proofs.Machine

/-!
# What programs mean

A program computes on 32-bit words and on texts. Every declaration has one cell for the whole run, so that a block which
is entered again finds its variables as it left them. Expressions are evaluated from left to right and change nothing. A
variable whose cell holds nothing of its type has no value; this is how a string variable stands before its first
assignment.

Statements are given by their complete runs: `Exec o Γ c w w'` says that the statement `c`, standing where the
environment is `Γ`, leads from the world `w` to the world `w'`.

Programs without `!` whose comparisons are those of numbers are plain. For a plain expression with a type, `Regular`
tells apart only what the code tells apart: operators, names and literals.
-/

namespace AlgolMips

open Mips

/-! ## Values -/

/-- The value of an expression. -/
inductive Value where
  | number (w : Word)
  | text (t : Text)
deriving DecidableEq

namespace Value

/-- Whether a value is one of a type. Truth values are numbers. -/
def fits : Value → Ty → Bool
  | number _, .integer => true
  | number _, .logical => true
  | text _, .string => true
  | _, _ => false

/-- How a value is written out. -/
def display : Value → Text
  | number w => Text.ofInt w.toInt
  | text t => t

/-- An operation on numbers. -/
def combine (f : Word → Word → Option Word) : Value → Value → Option Value
  | number a, number b => (f a b).map number
  | _, _ => none

end Value

/-- The text between the quotes of a lexeme. -/
def quoted (lexeme : Text) : Text := Text.trimEnding "\"" (Text.trimBeginning "\"" lexeme)

/-- The value of a literal, if its numeral can be held. -/
def literalValue? (lexeme : Text) : Option Value :=
  match Ty.ofLiteral lexeme with
  | .integer => (word? lexeme).map .number
  | .logical => some (.number (truth (lexeme = "true")))
  | .string => some (.text (quoted lexeme))
  | _ => none

/-! ## Operators -/

/-- `+`, `-` and a bitwise `or`. -/
def sum? (o : Overflow) (op : Text) (a b : Word) : Option Word :=
  if op = "+" then o.admit (a.saddOverflow b) (a + b)
  else if op = "-" then o.admit (a.ssubOverflow b) (a - b)
  else some (a ||| b)

/-- `*`, the quotient and the remainder of a division towards zero, and a bitwise `and`. -/
def product? (op : Text) (a b : Word) : Option Word :=
  if op = "*" then some (a * b)
  else if op = "/" ∨ op = "div" then if b = 0 then none else some (a.sdiv b)
  else if op = "rem" then if b = 0 then none else some (a.srem b)
  else some (a &&& b)

/-- `<`, `>`, `=` and inequality of signed numbers. -/
def comparison (op : Text) (a b : Word) : Word :=
  if op = "<" then truth (a.toInt < b.toInt)
  else if op = ">" then truth (b.toInt < a.toInt)
  else if op = "=" then truth (a = b)
  else truth (a ≠ b)

/-- The result of an operator on numbers. -/
def Operation.apply (o : Overflow) : Operation → Word → Word → Option Word
  | sum op, a, b => sum? o op a b
  | product op, a, b => product? op a b
  | comparison op, a, b => some (AlgolMips.comparison op a b)

/-! ## Expressions and statements -/

/-- The value of an expression, if it has one. -/
def Expr.eval (o : Overflow) (Γ : Env) (store : Cell → Value) : {l : Level} → Expr l → Option Value
  | _, .add left op right => do
    (← left.eval o Γ store).combine (sum? o op.value) (← right.eval o Γ store)
  | _, .term e => e.eval o Γ store
  | _, .mul left op right => do
    (← left.eval o Γ store).combine (product? op.value) (← right.eval o Γ store)
  | _, .relation e => e.eval o Γ store
  | _, .compare left op right => do
    (← left.eval o Γ store).combine (fun a b => some (comparison op.value a b)) (← right.eval o Γ store)
  | _, .factor e => e.eval o Γ store
  | _, .missing => none
  | _, .name tok => do
    let d ← Γ.find? tok.value
    if (store d.cell).fits d.ty then some (store d.cell) else none
  | _, .literal tok => literalValue? tok.value
  | _, .negation _ e => do
    match ← e.eval o Γ store with
    | .number w => some (.number (truth (w = 0)))
    | .text _ => none
  | _, .group _ e _ => e.eval o Γ store

/-- The cells, the input that is left and the output so far. -/
structure World where
  store : Cell → Value
  input : List Word
  output : Text

namespace World

def assign (w : World) (c : Cell) (v : Value) : World := { w with store := Function.update w.store c v }

def print (w : World) (t : Text) : World := { w with output := w.output ++ t }

end World

/-- The complete runs of statements and insides of blocks. -/
inductive Exec (o : Overflow) : Env → {x : Extent} → Code x → World → World → Prop where
  | empty {Γ : Env} {w : World} : Exec o Γ .empty w w
  | declare {Γ : Env} {type name : Token} {w : World} : Exec o Γ (.declare type name) w w
  | assign {Γ : Env} {target sign : Token} {value : Expr .expression} {w : World} {d : Binding} {v : Value} :
      Γ.find? target.value = some d → value.eval o Γ w.store = some v →
      Exec o Γ (.assign target sign value) w (w.assign d.cell v)
  | ifTrue {Γ : Env} {opening middle : Token} {condition : Expr .expression} {action : Stmt} {w w' : World} {a : Word} :
      condition.eval o Γ w.store = some (.number a) → a ≠ 0 → Exec o Γ action w w' →
      Exec o Γ (.ifThen opening condition middle action) w w'
  | ifFalse {Γ : Env} {opening middle : Token} {condition : Expr .expression} {action : Stmt} {w : World} :
      condition.eval o Γ w.store = some (.number 0) → Exec o Γ (.ifThen opening condition middle action) w w
  | whileTrue {Γ : Env} {opening middle : Token} {condition : Expr .expression} {action : Stmt} {w w' w'' : World}
      {a : Word} :
      condition.eval o Γ w.store = some (.number a) → a ≠ 0 → Exec o Γ action w w' →
      Exec o Γ (.whileDo opening condition middle action) w' w'' →
      Exec o Γ (.whileDo opening condition middle action) w w''
  | whileFalse {Γ : Env} {opening middle : Token} {condition : Expr .expression} {action : Stmt} {w : World} :
      condition.eval o Γ w.store = some (.number 0) → Exec o Γ (.whileDo opening condition middle action) w w
  | block {Γ : Env} {opening closing : Token} {inside : Body} {w w' : World} :
      Exec o Γ.enter inside w w' → Exec o Γ (.block opening inside closing) w w'
  | read {Γ : Env} {keyword opening target closing : Token} {w : World} {d : Binding} {a : Word} {rest : List Word} :
      Γ.find? target.value = some d → w.input = a :: rest →
      Exec o Γ (.read keyword opening (some target) closing) w ({ w with input := rest }.assign d.cell (.number a))
  | write {Γ : Env} {keyword opening closing : Token} {value : Expr .expression} {w : World} {v : Value} :
      value.eval o Γ w.store = some v →
      Exec o Γ (.write keyword opening value closing) w
        (w.print (v.display ++ if keyword.value = "writeln" then "\n" else ""))
  | done {Γ : Env} {w : World} : Exec o Γ .done w w
  | last {Γ : Env} {s : Stmt} {w w' : World} : Exec o Γ s w w' → Exec o Γ (.last s) w w'
  | next {Γ : Env} {s : Stmt} {separator : Token} {rest : Body} {w w' w'' : World} :
      Exec o Γ s w w' → Exec o (s.after Γ) rest w' w'' → Exec o Γ (.next s separator rest) w w''

/-- A program leads from one world to another. -/
def Program.Runs (o : Overflow) : Program → World → World → Prop
  | bare _, w, w' => w' = w
  | block _ inside _ _, w, w' => Exec o Env.initial.enter inside w w'

/-! ## Plain programs -/

/-- Without `!`, with an integer on the right of every comparison, with literals that have a value, and with strings
that hold no backslash. -/
def Expr.Plain (Γ : Env) : {l : Level} → Expr l → Prop
  | _, .add left _ right => left.Plain Γ ∧ right.Plain Γ
  | _, .term e => e.Plain Γ
  | _, .mul left _ right => left.Plain Γ ∧ right.Plain Γ
  | _, .relation e => e.Plain Γ
  | _, .compare left _ right => left.Plain Γ ∧ right.Plain Γ ∧ HasType Γ right .integer
  | _, .factor e => e.Plain Γ
  | _, .missing => True
  | _, .name _ => True
  | _, .literal tok =>
    (literalValue? tok.value).isSome ∧ (Ty.ofLiteral tok.value = .string → 0x5C ∉ tok.value.bytes)
  | _, .negation _ _ => False
  | _, .group _ e _ => e.Plain Γ

/-- Every expression of a statement is plain. -/
def Code.Plain : {x : Extent} → Code x → Env → Prop
  | _, .empty, _ => True
  | _, .declare _ _, _ => True
  | _, .assign _ _ value, Γ => value.Plain Γ
  | _, .ifThen _ condition _ action, Γ => condition.Plain Γ ∧ action.Plain Γ
  | _, .whileDo _ condition _ action, Γ => condition.Plain Γ ∧ action.Plain Γ
  | _, .block _ inside _, Γ => inside.Plain Γ.enter
  | _, .read _ _ _ _, _ => True
  | _, .write _ _ value _, Γ => value.Plain Γ
  | _, .done, _ => True
  | _, .last s, Γ => s.Plain Γ
  | _, .next s _ rest, Γ => s.Plain Γ ∧ rest.Plain (s.after Γ)

def Program.Plain : Program → Prop
  | bare _ => True
  | block _ inside _ _ => inside.Plain Env.initial.enter

/-! ## Values and types -/

theorem fits_literalValue? {lexeme : Text} {v : Value} (h : literalValue? lexeme = some v) :
    v.fits (Ty.ofLiteral lexeme) := by
  unfold literalValue? at h
  split at h
  · next hty =>
    obtain ⟨w, _, rfl⟩ := Option.map_eq_some_iff.1 h
    rw [hty]
    rfl
  · next hty =>
    cases h
    rw [hty]
    rfl
  · next hty =>
    cases h
    rw [hty]
    rfl
  · cases h

/-- A value that is made of two numbers. -/
theorem Value.combine_eq_some {f : Word → Word → Option Word} {x y v : Value} (h : x.combine f y = some v) :
    ∃ a b w, x = .number a ∧ y = .number b ∧ f a b = some w ∧ v = .number w := by
  cases x with
  | text t => cases h
  | number a =>
    cases y with
    | text t => cases h
    | number b =>
      obtain ⟨w, hw, rfl⟩ := Option.map_eq_some_iff.1 h
      exact ⟨a, b, w, rfl, rfl, hw, rfl⟩

theorem Value.number_of_bind_combine {f : Word → Word → Option Word} {x y : Option Value} {v : Value}
    (h : (do (← x).combine f (← y)) = some v) : ∃ w, v = .number w := by
  obtain ⟨_, _, hrest⟩ := Option.bind_eq_some_iff.1 h
  obtain ⟨_, _, hcombine⟩ := Option.bind_eq_some_iff.1 hrest
  obtain ⟨_, _, w, _, _, _, rfl⟩ := combine_eq_some hcombine
  exact ⟨w, rfl⟩

/-! ## Plain expressions with a type -/

/-- A plain expression with its type. The operators are alike here, and so are the levels. -/
inductive Regular (Γ : Env) : {l : Level} → Expr l → Ty → Prop where
  | joined {k l m : Level} {e : Expr k} {left : Expr l} {right : Expr m} {operation : Operation} {ρ σ : Ty} :
      e.Joins left operation right → operation.Takes ρ σ → Regular Γ left ρ → Regular Γ right σ →
      Regular Γ e operation.result
  | wrapped {k l : Level} {e : Expr k} {inner : Expr l} {τ : Ty} :
      e.Wraps inner → Regular Γ inner τ → Regular Γ e τ
  | name {tok : Token} {d : Binding} : Γ.find? tok.value = some d → Regular Γ (.name tok) d.ty
  | literal {tok : Token} :
      (literalValue? tok.value).isSome → (Ty.ofLiteral tok.value = .string → 0x5C ∉ tok.value.bytes) →
      Regular Γ (.literal tok) (Ty.ofLiteral tok.value)

theorem HasType.regular {Γ : Env} {l : Level} {e : Expr l} {τ : Ty} (h : HasType Γ e τ) (hp : e.Plain Γ) :
    Regular Γ e τ := by
  induction h with
  | name hd => exact .name hd
  | literal => exact .literal hp.1 hp.2
  | negation => exact absurd hp id
  | group _ ih => exact .wrapped .group (ih hp)
  | factor _ ih => exact .wrapped .factor (ih hp)
  | comparison _ hstring _ ihl ihr => exact .joined .compare ⟨hstring, rfl⟩ (ihl hp.1) (ihr hp.2.1)
  | leftAlone _ hr hne => exact absurd (hr.unique hp.2.2) hne
  | relation _ ih => exact .wrapped .relation (ih hp)
  | mul _ _ hstring ihl ihr => exact .joined .mul ⟨rfl, hstring⟩ (ihl hp.1) (ihr hp.2)
  | term _ ih => exact .wrapped .term (ih hp)
  | add _ _ hstring ihl ihr => exact .joined .add ⟨rfl, hstring⟩ (ihl hp.1) (ihr hp.2)

theorem Expr.Wraps.hasType {k l : Level} {e : Expr k} {inner : Expr l} (h : e.Wraps inner) {Γ : Env} {τ : Ty}
    (ht : HasType Γ inner τ) : HasType Γ e τ := by
  cases h with
  | term => exact .term ht
  | relation => exact .relation ht
  | factor => exact .factor ht
  | group => exact .group ht

theorem Regular.hasType {Γ : Env} {l : Level} {e : Expr l} {τ : Ty} (h : Regular Γ e τ) : HasType Γ e τ := by
  induction h with
  | joined hjoins htakes _ _ ihl ihr =>
    cases hjoins with
    | add =>
      obtain ⟨rfl, hstring⟩ := htakes
      exact .add ihl ihr hstring
    | mul =>
      obtain ⟨rfl, hstring⟩ := htakes
      exact .mul ihl ihr hstring
    | compare =>
      obtain ⟨hstring, rfl⟩ := htakes
      exact .comparison ihl hstring ihr
  | wrapped hwraps _ ih => exact hwraps.hasType ih
  | name hd => exact .name hd
  | literal => exact .literal

section

variable {k l m : Level} {e : Expr k} {left : Expr l} {right : Expr m} {operation : Operation}

theorem Expr.Joins.eval (h : e.Joins left operation right) (o : Overflow) (Γ : Env) (store : Cell → Value) :
    e.eval o Γ store = (do (← left.eval o Γ store).combine (operation.apply o) (← right.eval o Γ store)) := by
  cases h <;> rfl

theorem Expr.Wraps.eval (h : e.Wraps left) (o : Overflow) (Γ : Env) (store : Cell → Value) :
    e.eval o Γ store = left.eval o Γ store := by
  cases h <;> rfl

end

/-- The value of a plain expression is one of its type. -/
theorem Regular.fits_eval {o : Overflow} {Γ : Env} {store : Cell → Value} {l : Level} {e : Expr l} {τ : Ty} {v : Value}
    (h : Regular Γ e τ) (hv : e.eval o Γ store = some v) : v.fits τ := by
  induction h generalizing v with
  | @joined _ _ _ _ _ _ operation _ _ hjoins =>
    rw [hjoins.eval] at hv
    obtain ⟨w, rfl⟩ := Value.number_of_bind_combine hv
    cases operation <;> rfl
  | wrapped hwraps _ ih =>
    rw [hwraps.eval] at hv
    exact ih hv
  | name hd =>
    obtain ⟨d, hd', hvalue⟩ := Option.bind_eq_some_iff.1 hv
    rw [hd] at hd'
    cases hd'
    split at hvalue
    · next hfits =>
      cases hvalue
      exact hfits
    · cases hvalue
  | literal => exact fits_literalValue? hv

end AlgolMips
