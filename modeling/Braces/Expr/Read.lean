import Braces.Expr
import Braces.Reading

/-!
# Reading expressions

Expressions by binding strength, from loose to tight: `or`, `and`, `not`, comparisons, sums,
products, signs, subscripts, and the atoms. Every binary level associates to the left, comparisons
included. Each reader uses up at least one token, which is what makes the recursion end.
-/

namespace Braces

/-- The levels of binary operators. -/
inductive Level where
  | disjunction | conjunction | comparison | sum | product
  deriving DecidableEq, Repr

namespace Level

/-- The operator that a token stands for at a level. -/
def operator? : Level → Kind → Option BinOp
  | disjunction, .keyword .or => some .or
  | conjunction, .keyword .and => some .and
  | comparison, .symbol .doubleEqual => some .equal
  | comparison, .symbol .notEqual => some .notEqual
  | comparison, .symbol .lessThan => some .lessThan
  | comparison, .symbol .lessEqual => some .lessEqual
  | comparison, .symbol .greaterThan => some .greaterThan
  | comparison, .symbol .greaterEqual => some .greaterEqual
  | sum, .symbol .plus => some .add
  | sum, .symbol .minus => some .sub
  | product, .symbol .star => some .mul
  | product, .symbol .slash => some .div
  | product, .symbol .doubleSlash => some .floorDiv
  | product, .symbol .percent => some .mod
  | _, _ => none

/-- How loosely a level binds. -/
@[simp] def rank : Level → Nat
  | disjunction => 8
  | conjunction => 7
  | comparison => 5
  | sum => 4
  | product => 3

theorem rank_le (l : Level) : l.rank ≤ 8 := by
  cases l <;> decide

end Level

/-- The node of a call. `len` and `range` have nodes of their own, and `range` of one argument
starts at zero. -/
def callNode (name : String) (args : List Expr) : Except ParseFault Expr :=
  if name = Builtin.len.name then
    match args with
    | [e] => .ok (.len e)
    | _ => .error (.wrongArity .len args.length)
  else if name = Builtin.range.name then
    match args with
    | [stop] => .ok (.range (.int 0) (some stop) none)
    | [start, stop] => .ok (.range start (some stop) none)
    | [start, stop, step] => .ok (.range start (some stop) (some step))
    | _ => .error (.wrongArity .range args.length)
  else .ok (.call name args)

mutual

/-- Operands of a level, joined by its operators. -/
def readLevel (stop : Token) (l : Level) (ts : List Token) :
    Except ParseError (Reading Expr ts.length) := do
  let ⟨left, rest, h⟩ ← readOperand stop l ts
  let ⟨e, r₁, h₁⟩ ← readTail stop l left rest
  return ⟨e, r₁, by omega⟩
termination_by 32 * ts.length + (2 * l.rank + 1)

/-- What follows the first operand of a level. -/
def readTail (stop : Token) (l : Level) (left : Expr) (ts : List Token) :
    Except ParseError (Reading Expr (ts.length + 1)) :=
  match ts with
  | [] => .ok ⟨left, [], Reading.nil_lt⟩
  | t :: rest =>
    match l.operator? t.kind with
    | none => .ok ⟨left, t :: rest, Reading.self_lt _⟩
    | some op => do
      let ⟨right, r₁, h⟩ ← readOperand stop l rest
      let ⟨e, r₂, h₁⟩ ← readTail stop l (.combine op left right) r₁
      return ⟨e, r₂, by simp only [List.length_cons]; omega⟩
termination_by 32 * ts.length
decreasing_by
  · have := l.rank_le
    simp only [List.length_cons]; omega
  · simp only [List.length_cons]; omega

/-- One operand of a level. -/
def readOperand (stop : Token) (l : Level) (ts : List Token) :
    Except ParseError (Reading Expr ts.length) :=
  match l with
  | .disjunction => readLevel stop .conjunction ts
  | .conjunction => readNot stop ts
  | .comparison => readLevel stop .sum ts
  | .sum => readLevel stop .product ts
  | .product => readSigned stop ts
termination_by 32 * ts.length + 2 * l.rank
decreasing_by all_goals simp only [Level.rank]; omega

def readNot (stop : Token) (ts : List Token) : Except ParseError (Reading Expr ts.length) :=
  match ts with
  | ⟨.keyword .not, _⟩ :: rest => do
    let ⟨e, r₁, h⟩ ← readNot stop rest
    return ⟨.unary .not e, r₁, by simp only [List.length_cons]; omega⟩
  | ts => readLevel stop .comparison ts
termination_by 32 * ts.length + 12
decreasing_by
  · simp only [List.length_cons]; omega
  · simp only [Level.rank]; omega

def readSigned (stop : Token) (ts : List Token) : Except ParseError (Reading Expr ts.length) :=
  match ts with
  | ⟨.symbol .plus, _⟩ :: rest => do
    let ⟨e, r₁, h⟩ ← readSigned stop rest
    return ⟨.unary .plus e, r₁, by simp only [List.length_cons]; omega⟩
  | ⟨.symbol .minus, _⟩ :: rest => do
    let ⟨e, r₁, h⟩ ← readSigned stop rest
    return ⟨.unary .neg e, r₁, by simp only [List.length_cons]; omega⟩
  | ts => do
    let ⟨e, rest, h⟩ ← readAtom stop ts
    let ⟨e', r₁, h₁⟩ ← readSubscripts stop e rest
    return ⟨e', r₁, by omega⟩
termination_by 32 * ts.length + 5

/-- Subscripts after an atom. -/
def readSubscripts (stop : Token) (target : Expr) (ts : List Token) :
    Except ParseError (Reading Expr (ts.length + 1)) :=
  match ts with
  | ⟨.symbol .openSquare, _⟩ :: rest => do
    let ⟨i, r₁, h⟩ ← readLevel stop .disjunction rest
    let ⟨_, r₂, h₁⟩ ← expect stop (.symbol .closeSquare) r₁
    let ⟨e, r₃, h₂⟩ ← readSubscripts stop (.index target i) r₂
    return ⟨e, r₃, by simp only [List.length_cons]; omega⟩
  | ts => .ok ⟨target, ts, Reading.self_lt ts⟩
termination_by 32 * ts.length

def readAtom (stop : Token) (ts : List Token) : Except ParseError (Reading Expr ts.length) :=
  match ts with
  | ⟨.int n, _⟩ :: rest => .ok ⟨.int n, rest, Reading.tail_lt _ rest⟩
  | ⟨.float x, _⟩ :: rest => .ok ⟨.float x, rest, Reading.tail_lt _ rest⟩
  | ⟨.str s, _⟩ :: rest => .ok ⟨.str s, rest, Reading.tail_lt _ rest⟩
  | ⟨.bool b, _⟩ :: rest => .ok ⟨.bool b, rest, Reading.tail_lt _ rest⟩
  | ⟨.ident name, pos⟩ :: ⟨.symbol .openParen, _⟩ :: rest => do
    let ⟨args, r₁, h⟩ ← readItems stop .closeParen rest
    match callNode name args with
    | .ok e => return ⟨e, r₁, by simp only [List.length_cons]; omega⟩
    | .error fault => throw ⟨fault, ⟨.ident name, pos⟩, r₁⟩
  | ⟨.ident name, _⟩ :: rest => .ok ⟨.var name, rest, Reading.tail_lt _ rest⟩
  | ⟨.symbol .openParen, _⟩ :: rest => do
    let ⟨e, r₁, h⟩ ← readLevel stop .disjunction rest
    let ⟨_, r₂, h₁⟩ ← expect stop (.symbol .closeParen) r₁
    return ⟨e, r₂, by simp only [List.length_cons]; omega⟩
  | ⟨.symbol .openSquare, _⟩ :: rest => do
    let ⟨elements, r₁, h⟩ ← readItems stop .closeSquare rest
    return ⟨.list elements, r₁, by simp only [List.length_cons]; omega⟩
  | ts => unexpected stop ts .expression
termination_by 32 * ts.length + 4

/-- Items separated by commas up to the closing bracket. A comma may follow the last one. -/
def readItems (stop : Token) (close : Symbol) (ts : List Token) :
    Except ParseError (Reading (List Expr) ts.length) :=
  match ts with
  | [] => unexpected stop [] .expression
  | t :: rest =>
    if t.kind = .symbol close then .ok ⟨[], rest, Reading.tail_lt _ rest⟩
    else do
      let ⟨e, r₁, h⟩ ← readLevel stop .disjunction (t :: rest)
      match r₁, h with
      | ⟨.symbol .comma, _⟩ :: r₂, h => do
        let ⟨es, r₃, h₁⟩ ← readItems stop close r₂
        return ⟨e :: es, r₃, by simp only [List.length_cons] at h ⊢; omega⟩
      | r₂, h => do
        let ⟨_, r₃, h₁⟩ ← expect stop (.symbol close) r₂
        return ⟨[e], r₃, by omega⟩
termination_by 32 * ts.length + 20
decreasing_by
  · simp only [Level.rank]; omega
  · simp only [List.length_cons] at h ⊢; omega

end

/-- An expression off the front of a token list. -/
def readExpr (stop : Token) (ts : List Token) : Except ParseError (Reading Expr ts.length) :=
  readLevel stop .disjunction ts

end Braces
