import Braces.Proofs.Grouping.Literals
import Braces.Proofs.Syntax.Phrases
import Braces.Stmt
import Braces.Token.Piece

/-!
# The text of programs

How a program is written down: one statement a line, each block four columns deeper than the line it
belongs to, and parentheses around an operator expression that is an operand. A style makes the
choices that are left. `isSource` tells the programs that can be written down at all.
-/

namespace Braces

/-! ## Strings and names -/

/-- Whether text can stand between two quotes of a kind: neither the quote nor a newline occurs
bare, and each backslash keeps a character, which is not a newline. -/
def isQuotable (quote : Char) : List Char → Bool
  | [] => true
  | c :: r =>
    if c = quote || c = '\n' then false
    else if c = '\\' then
      match r with
      | [] => false
      | d :: r' => d ≠ '\n' && isQuotable quote r'
    else isQuotable quote r

/-- Words that are not names. -/
def reservedWords : List String := "True" :: "False" :: Keyword.all.map Keyword.spelling

def isIdentifier (name : String) : Bool := Cpp.isName name && name ∉ reservedWords

/-! ## Choices -/

/-- Choices that do not change what is spelled. -/
structure Style where
  /-- Strings for which single quotes are preferred. -/
  single : String → Bool
  /-- Operator expressions that get parentheses even where no operator is around them. -/
  grouped : Expr → Bool
  /-- Conditions that follow a block as `elif`, where they are all of an `else` block. -/
  chained : Stmt → Bool

namespace Style

/-- The quote of a string. -/
def quote (style : Style) (s : String) : Char :=
  if style.single s && isQuotable '\'' s.toList || !isQuotable '"' s.toList then '\'' else '"'

end Style

/-! ## Expressions -/

namespace Piece

def keyword (k : Keyword) : Piece := .lexeme (.keyword k) k.spelling.toList

def symbol (s : Symbol) : Piece := .lexeme (.symbol s) s.spelling.toList

def name (n : String) : Piece := .lexeme (.ident n) n.toList

def space : Piece := .blank ' '

/-- The characters of some pieces. -/
def texts (ps : List Piece) : List Char := ps.flatMap text

/-- The kind of token that a piece is, if it is one. -/
def kind? : Piece → Option Kind
  | lexeme k _ => some k
  | _ => none

/-- The kinds of the tokens among some pieces. -/
def lexemes (ps : List Piece) : List Kind := ps.filterMap kind?

theorem texts_cons (p : Piece) (ps : List Piece) : texts (p :: ps) = p.text ++ texts ps :=
  List.flatMap_cons

theorem texts_append (ps qs : List Piece) : texts (ps ++ qs) = texts ps ++ texts qs :=
  List.flatMap_append

theorem lexemes_nil : lexemes [] = [] := rfl

theorem lexemes_append (ps qs : List Piece) : lexemes (ps ++ qs) = lexemes ps ++ lexemes qs :=
  List.filterMap_append

theorem lexemes_cons (p : Piece) (ps : List Piece) :
    lexemes (p :: ps) = p.kind?.toList ++ lexemes ps := by
  rw [lexemes, List.filterMap_cons]
  cases p.kind? <;> rfl

/-- Some pieces between two symbols. -/
def between (left right : Symbol) (ps : List Piece) : List Piece :=
  symbol left :: (ps ++ [symbol right])

/-- Some pieces, in parentheses if asked for. -/
def grouped (group : Bool) (ps : List Piece) : List Piece :=
  if group then between .openParen .closeParen ps else ps

end Piece

def BinOp.piece (op : BinOp) : Piece := .lexeme op.kind op.pythonSymbol.toList

def UnOp.pieces : UnOp → List Piece
  | plus => [.symbol .plus]
  | neg => [.symbol .minus]
  | not => [.keyword .not, .space]

namespace Expr

def isOperator : Expr → Bool
  | .binary _ _ _ | .unary _ _ => true
  | _ => false

mutual

def pieces (style : Style) : Expr → List Piece
  | .int n => [.lexeme (.int n) (Nat.toDigits 10 n.toNat)]
  | .float x => [.lexeme (.float x) x.text.toList]
  | .str s => [.lexeme (.str s) (style.quote s :: s.toList ++ [style.quote s])]
  | .bool b => [.lexeme (.bool b) (if b then "True" else "False").toList]
  | .var name => [.name name]
  | .binary op l r =>
    Piece.grouped l.isOperator (l.pieces style) ++
      .space :: op.piece :: .space :: Piece.grouped r.isOperator (r.pieces style)
  | .unary op e => op.pieces ++ Piece.grouped e.isOperator (e.pieces style)
  | .list elements => Piece.between .openSquare .closeSquare (items style elements)
  | .index target position =>
    Piece.grouped target.isOperator (target.pieces style) ++
      Piece.between .openSquare .closeSquare
        (Piece.grouped (position.isOperator && style.grouped position) (position.pieces style))
  | .call name args => .name name :: Piece.between .openParen .closeParen (items style args)
  | .len e =>
    .name "len" :: Piece.between .openParen .closeParen
      (Piece.grouped (e.isOperator && style.grouped e) (e.pieces style))
  | .range start stop step =>
    .name "range" :: Piece.between .openParen .closeParen
      (Piece.grouped (start.isOperator && style.grouped start) (start.pieces style) ++
        (option style stop ++ option style step))

/-- Expressions with commas between them. -/
def items (style : Style) : List Expr → List Piece
  | [] => []
  | e :: es =>
    Piece.grouped (e.isOperator && style.grouped e) (e.pieces style) ++ moreItems style es

/-- Expressions after commas. -/
def moreItems (style : Style) : List Expr → List Piece
  | [] => []
  | e :: es =>
    .symbol .comma :: .space ::
      (Piece.grouped (e.isOperator && style.grouped e) (e.pieces style) ++ moreItems style es)

def option (style : Style) : Option Expr → List Piece
  | none => []
  | some e =>
    .symbol .comma :: .space ::
      Piece.grouped (e.isOperator && style.grouped e) (e.pieces style)

end

mutual

/-- Whether an expression is one that text without fractions can spell. -/
def isSource : Expr → Bool
  | .int n => 0 ≤ n && n ≤ maxInteger
  | .float _ => false
  | .str s => isQuotable '\'' s.toList || isQuotable '"' s.toList
  | .bool _ => true
  | .var name => isIdentifier name
  | .binary op l r =>
    (op ≠ .add || l.isTextual = r.isTextual) && l.isSource && r.isSource
  | .unary _ e | .len e => e.isSource
  | .list elements => allSource elements
  | .index target position => target.isSource && position.isSource
  | .call name args =>
    isIdentifier name && name ≠ Builtin.len.name && name ≠ Builtin.range.name && allSource args
  | .range start stop step =>
    start.isSource && stop.isSome && optionSource stop && optionSource step

def allSource : List Expr → Bool
  | [] => true
  | e :: es => e.isSource && allSource es

def optionSource : Option Expr → Bool
  | none => true
  | some e => e.isSource

end

end Expr

/-! ## Statements -/

/-- A line of text within blocks. -/
structure Line where
  depth : Nat
  pieces : List Piece

def Line.text (l : Line) : List Char :=
  List.replicate (4 * l.depth) ' ' ++ (Piece.texts l.pieces ++ ['\n'])

/-- Names after commas. -/
def moreNames : List String → List Piece
  | [] => []
  | name :: names => .symbol .comma :: .space :: .name name :: moreNames names

def namePieces : List String → List Piece
  | [] => []
  | name :: names => .name name :: moreNames names

namespace Stmt

def isCondition : Stmt → Bool
  | .ifElse _ _ _ => true
  | _ => false

/-- The first line of a statement. A condition starts with the given keyword. -/
def head (style : Style) (k : Keyword) : Stmt → List Piece
  | .assign name value =>
    .name name :: .space :: .symbol .equal :: .space :: value.pieces style
  | .assignAt target position value =>
    (Expr.index target position).pieces style ++
      .space :: .symbol .equal :: .space :: value.pieces style
  | .print args =>
    .keyword .print :: Piece.between .openParen .closeParen (Expr.items style args)
  | .ifElse cond _ _ => .keyword k :: .space :: (cond.pieces style ++ [.symbol .colon])
  | .whileLoop cond _ => .keyword .while_ :: .space :: (cond.pieces style ++ [.symbol .colon])
  | .forLoop name iterable _ =>
    .keyword .for_ :: .space :: .name name :: .space :: .keyword .in_ :: .space ::
      (iterable.pieces style ++ [.symbol .colon])
  | .funcDef name params _ =>
    .keyword .def_ :: .space :: .name name ::
      (Piece.between .openParen .closeParen (namePieces params) ++ [.symbol .colon])
  | .ret none => [.keyword .return_]
  | .ret (some e) => .keyword .return_ :: .space :: e.pieces style
  | .eval e => e.pieces style
  | .pass => [.keyword .pass]
  | .break_ => [.keyword .break_]
  | .continue_ => [.keyword .continue_]

/-- The line that starts an `else` block. -/
def elseHead : List Piece := [.keyword .else_, .symbol .colon]

/-- Whether an `else` block is written as `elif`. -/
def isChained (style : Style) : List Stmt → Bool
  | [s] => s.isCondition && style.chained s
  | _ => false

mutual

/-- The lines of a statement. A condition starts with the given keyword. -/
def lines (style : Style) (k : Keyword) (depth : Nat) : Stmt → List Line
  | .ifElse cond body orelse =>
    ⟨depth, head style k (.ifElse cond body orelse)⟩ ::
      (linesOf style .if_ (depth + 1) body ++ elseLines style depth orelse)
  | .whileLoop cond body =>
    ⟨depth, head style k (.whileLoop cond body)⟩ :: linesOf style .if_ (depth + 1) body
  | .forLoop name iterable body =>
    ⟨depth, head style k (.forLoop name iterable body)⟩ :: linesOf style .if_ (depth + 1) body
  | .funcDef name params body =>
    ⟨depth, head style k (.funcDef name params body)⟩ :: linesOf style .if_ (depth + 1) body
  | s => [⟨depth, head style k s⟩]

def linesOf (style : Style) (k : Keyword) (depth : Nat) : List Stmt → List Line
  | [] => []
  | s :: rest => s.lines style k depth ++ linesOf style k depth rest

def elseLines (style : Style) (depth : Nat) : Option (List Stmt) → List Line
  | none => []
  | some body =>
    if isChained style body then linesOf style .elif depth body
    else ⟨depth, elseHead⟩ :: linesOf style .if_ (depth + 1) body

end

mutual

/-- Whether a statement is one that text without fractions can spell. Functions are defined at the
top level only, and only they return. -/
def isSource (top inFunction : Bool) : Stmt → Bool
  | .assign name value => isIdentifier name && value.isSource
  | .assignAt target position value => target.isSource && position.isSource && value.isSource
  | .print args => Expr.allSource args
  | .ifElse cond body orelse =>
    cond.isSource && !body.isEmpty && allSource false inFunction body &&
      elseSource inFunction orelse
  | .whileLoop cond body => cond.isSource && !body.isEmpty && allSource false inFunction body
  | .forLoop name iterable body =>
    isIdentifier name && iterable.isSource && !body.isEmpty && allSource false inFunction body
  | .funcDef name params body =>
    top && isIdentifier name && params.all isIdentifier && !body.isEmpty &&
      allSource false true body
  | .ret value => inFunction && Expr.optionSource value
  | .eval e => e.isSource
  | .pass | .break_ | .continue_ => true

def allSource (top inFunction : Bool) : List Stmt → Bool
  | [] => true
  | s :: rest => s.isSource top inFunction && allSource top inFunction rest

def elseSource (inFunction : Bool) : Option (List Stmt) → Bool
  | none => true
  | some body => !body.isEmpty && allSource false inFunction body

end

end Stmt

namespace Program

def isSource (p : Program) : Bool := Stmt.allSource true false p

/-- The text of a program. -/
def text (style : Style) (p : Program) : String :=
  String.ofList ((Stmt.linesOf style .if_ 0 p).flatMap Line.text)

end Program

end Braces
