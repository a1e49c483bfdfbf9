import AlgolMips.Token

/-!
# Syntax trees

A tree has a place for every token that the grammar asks for, and each place holds the token that was found there, of the
right kind or not. So a tree describes well-formed and faulty programs alike, and the tokens of a program can be read off
its tree. Operators associate to the left.

    program    : block '.'
    block      : 'begin' { statement ';' } 'end'
    statement  : [ declaration | assignment | if | while | block | io ]
    expression : term { addOp term }
    term       : relation { mulOp relation }
    relation   : factor [ relOp factor ]
    factor     : identifier | literal | '!' factor | '(' expression ')'
-/

namespace AlgolMips

/-- The four layers of expressions, from the loosest to the tightest. -/
inductive Level where
  | expression
  | term
  | relation
  | factor
deriving DecidableEq

/-- Expressions by layer. `missing` is a factor of which no token was found. -/
inductive Expr : Level → Type where
  | add (left : Expr .expression) (op : Token) (right : Expr .term) : Expr .expression
  | term (e : Expr .term) : Expr .expression
  | mul (left : Expr .term) (op : Token) (right : Expr .relation) : Expr .term
  | relation (e : Expr .relation) : Expr .term
  | compare (left : Expr .factor) (op : Token) (right : Expr .factor) : Expr .relation
  | factor (e : Expr .factor) : Expr .relation
  | missing : Expr .factor
  | name (tok : Token) : Expr .factor
  | literal (tok : Token) : Expr .factor
  | negation (op : Token) (e : Expr .factor) : Expr .factor
  | group (opening : Token) (e : Expr .expression) (closing : Token) : Expr .factor

/-- A single statement, or the inside of a block. -/
inductive Extent where
  | statement
  | body
deriving DecidableEq

/-- Statements, and the insides of blocks: statements with a separator after each of them, the last one excepted where
the block ends behind it. A `read` has no target where no identifier was found. -/
inductive Code : Extent → Type where
  | empty : Code .statement
  | declare (type name : Token) : Code .statement
  | assign (target sign : Token) (value : Expr .expression) : Code .statement
  | ifThen (opening : Token) (condition : Expr .expression) (middle : Token) (action : Code .statement) : Code .statement
  | whileDo (opening : Token) (condition : Expr .expression) (middle : Token) (action : Code .statement) : Code .statement
  | block (opening : Token) (inside : Code .body) (closing : Token) : Code .statement
  | read (keyword opening : Token) (target : Option Token) (closing : Token) : Code .statement
  | write (keyword opening : Token) (value : Expr .expression) (closing : Token) : Code .statement
  | done : Code .body
  | last (s : Code .statement) : Code .body
  | next (s : Code .statement) (separator : Token) (rest : Code .body) : Code .body

abbrev Stmt := Code .statement

abbrev Body := Code .body

/-- A whole program: a block, which may be missing, and the token in place of the final dot. -/
inductive Program where
  | bare (stop : Token)
  | block (opening : Token) (inside : Body) (closing stop : Token)

end AlgolMips
