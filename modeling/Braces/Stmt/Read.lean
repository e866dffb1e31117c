import Braces.Expr.Read
import Braces.Fresh
import Braces.Stmt

/-!
# Reading programs

Statements, blocks, functions and whole programs off a token list. Two forms are taken apart while
they are read: an augmented assignment becomes an assignment of the combined value, and a tuple
assignment goes through fresh variables that hold all values before any target is stored to.
-/

namespace Braces

/-- The variables that hold the values of a tuple assignment. -/
def tempName (n : Nat) : String := "py2cpp_tmp_" ++ toString n

/-- What stays the same while a token list is read. -/
structure Source where
  /-- The token that ends the input. -/
  stop : Token
  /-- Identifiers that occur anywhere in the input. -/
  taken : List String

/-- Statements, and the number from which fresh variables are taken next. -/
abbrev Numbered (α : Type) := α × Nat

/-! ## Assignments -/

/-- The statement that stores a value to a target. -/
def storeTo? (target value : Expr) : Option Stmt :=
  match target with
  | .var name => some (.assign name value)
  | .index list position => some (.assignAt list position value)
  | _ => none

/-- Fresh variables, and the number after them. -/
def freshTemps (taken : List String) : Nat → Nat → List String × Nat
  | 0, next => ([], next)
  | count + 1, next =>
    let n := firstFree (fun k => [tempName k]) taken next
    let (temps, next) := freshTemps taken count (n + 1)
    (tempName n :: temps, next)

/-- All values go to fresh variables, in order, and from there to the targets, in order. -/
def tupleAssign (taken : List String) (next : Nat) (targets values : List Expr) :
    Except ParseFault (Numbered (List Stmt)) :=
  if targets.length ≠ values.length then .error (.unbalanced targets.length values.length)
  else
    let (temps, next) := freshTemps taken values.length next
    match List.zipWith (fun t x => storeTo? t (.var x)) targets temps |>.mapM id with
    | none => .error .invalidTarget
    | some stores => .ok (List.zipWith Stmt.assign temps values ++ stores, next)

/-- The operator of an augmented assignment. -/
def augmented? : Kind → Option BinOp
  | .symbol .plusEqual => some .add
  | .symbol .minusEqual => some .sub
  | .symbol .starEqual => some .mul
  | .symbol .slashEqual => some .div
  | .symbol .doubleSlashEqual => some .floorDiv
  | .symbol .percentEqual => some .mod
  | _ => none

/-- Whether a simple statement ends before these tokens. -/
def endsSimple (ts : List Token) : Bool :=
  match ts with
  | [] => true
  | t :: _ => t.kind = .newline || t.kind = .symbol .semicolon || t.kind = .dedent || t.kind = .eof

/-- Expressions after commas. A comma may stand before what `ends` them. -/
def readMore (stop : Token) (ends : List Token → Bool) (ts : List Token) :
    Except ParseError (Reading (List Expr) (ts.length + 1)) :=
  match ts with
  | ⟨.symbol .comma, _⟩ :: rest =>
    if ends rest then .ok ⟨[], rest, Reading.tail_lt_succ _ rest⟩
    else do
      let ⟨e, r₁, h⟩ ← readExpr stop rest
      let ⟨es, r₂, h₁⟩ ← readMore stop ends r₁
      return ⟨e :: es, r₂, by simp only [List.length_cons]; omega⟩
  | ts => .ok ⟨[], ts, Reading.self_lt ts⟩
termination_by ts.length

/-- How a statement goes on after its first expression. -/
inductive Follow where
  | moreTargets
  | value
  | operand (op : BinOp)
  | nothing
  deriving DecidableEq, Repr

def Follow.of (ts : List Token) : Follow :=
  match ts with
  | [] => .nothing
  | t :: _ =>
    if t.kind = .symbol .comma then .moreTargets
    else if t.kind = .symbol .equal then .value
    else
      match augmented? t.kind with
      | some op => .operand op
      | none => .nothing

/-- An assignment of any form, or an expression. A failure to store names the first token. -/
def readAssignment (src : Source) (next : Nat) (ts : List Token) :
    Except ParseError (Reading (Numbered (List Stmt)) ts.length) := do
  let start := current src.stop ts
  let ⟨first, r, h⟩ ← readExpr src.stop ts
  match Follow.of r with
  | .moreTargets => do
    let ⟨targets, r₁, h₁⟩ ← readMore src.stop (startsWith (.symbol .equal)) r
    let ⟨_, r₂, h₂⟩ ← expect src.stop (.symbol .equal) r₁
    let ⟨value, r₃, h₃⟩ ← readExpr src.stop r₂
    let ⟨values, r₄, h₄⟩ ← readMore src.stop endsSimple r₃
    match tupleAssign src.taken next (first :: targets) (value :: values) with
    | .ok stmts => return ⟨stmts, r₄, by omega⟩
    | .error fault => throw ⟨fault, start, r₄⟩
  | .value => do
    let ⟨value, r₁, h₁⟩ ← readExpr src.stop r.tail
    match storeTo? first value with
    | some s => return ⟨([s], next), r₁, by simp only [List.length_tail] at h₁; omega⟩
    | none => throw ⟨.invalidTarget, start, r₁⟩
  | .operand op => do
    let ⟨value, r₁, h₁⟩ ← readExpr src.stop r.tail
    match storeTo? first (.combine op first value) with
    | some s => return ⟨([s], next), r₁, by simp only [List.length_tail] at h₁; omega⟩
    | none => throw ⟨.invalidTarget, start, r₁⟩
  | .nothing => return ⟨([.eval first], next), r, h⟩

/-! ## Simple statements -/

def readSimple (src : Source) (inFunction : Bool) (next : Nat) (ts : List Token) :
    Except ParseError (Reading (Numbered (List Stmt)) ts.length) :=
  match ts with
  | ⟨.keyword .return_, pos⟩ :: rest =>
    if !inFunction then throw ⟨.returnOutsideFunction, ⟨.keyword .return_, pos⟩, rest⟩
    else if endsSimple rest then return ⟨([.ret none], next), rest, Reading.tail_lt _ rest⟩
    else do
      let ⟨e, r₁, h⟩ ← readExpr src.stop rest
      return ⟨([.ret (some e)], next), r₁, by simp only [List.length_cons]; omega⟩
  | ⟨.keyword .print, _⟩ :: rest => do
    let ⟨_, r₁, h⟩ ← expect src.stop (.symbol .openParen) rest
    let ⟨args, r₂, h₁⟩ ← readItems src.stop .closeParen r₁
    return ⟨([.print args], next), r₂, by simp only [List.length_cons]; omega⟩
  | ⟨.keyword .pass, _⟩ :: rest => return ⟨([.pass], next), rest, Reading.tail_lt _ rest⟩
  | ⟨.keyword .break_, _⟩ :: rest => return ⟨([.break_], next), rest, Reading.tail_lt _ rest⟩
  | ⟨.keyword .continue_, _⟩ :: rest => return ⟨([.continue_], next), rest, Reading.tail_lt _ rest⟩
  | ts => readAssignment src next ts

/-- Simple statements after semicolons. One may stand at the end of the line. -/
def readAfterSemicolons (src : Source) (inFunction : Bool) (next : Nat) (ts : List Token) :
    Except ParseError (Reading (Numbered (List Stmt)) (ts.length + 1)) :=
  match ts with
  | ⟨.symbol .semicolon, _⟩ :: rest =>
    if endsSimple rest then return ⟨([], next), rest, Reading.tail_lt_succ _ rest⟩
    else do
      let ⟨(s, next), r₁, h⟩ ← readSimple src inFunction next rest
      let ⟨(more, next), r₂, h₁⟩ ← readAfterSemicolons src inFunction next r₁
      return ⟨(s ++ more, next), r₂, by simp only [List.length_cons]; omega⟩
  | ts => return ⟨([], next), ts, Reading.self_lt ts⟩
termination_by ts.length

/-- The end of a line of simple statements. Only a newline is used up. -/
def readLineEnd (stop : Token) (ts : List Token) :
    Except ParseError (Reading Unit (ts.length + 1)) :=
  match ts with
  | ⟨.newline, _⟩ :: rest => .ok ⟨(), rest, Reading.tail_lt_succ _ rest⟩
  | ⟨.dedent, pos⟩ :: rest => .ok ⟨(), ⟨.dedent, pos⟩ :: rest, Reading.self_lt _⟩
  | ⟨.eof, pos⟩ :: rest => .ok ⟨(), ⟨.eof, pos⟩ :: rest, Reading.self_lt _⟩
  | [] => .ok ⟨(), [], Reading.nil_lt⟩
  | ts => unexpected stop ts .endOfLine

/-- A line of simple statements. -/
def readLine (src : Source) (inFunction : Bool) (next : Nat) (ts : List Token) :
    Except ParseError (Reading (Numbered (List Stmt)) ts.length) := do
  let ⟨(s, next), r₁, h⟩ ← readSimple src inFunction next ts
  let ⟨(more, next), r₂, h₁⟩ ← readAfterSemicolons src inFunction next r₁
  let ⟨_, r₃, h₂⟩ ← readLineEnd src.stop r₂
  return ⟨(s ++ more, next), r₃, by omega⟩

/-! ## Blocks -/

mutual

/-- A colon and either an indented body or simple statements on the same line. -/
def readBlock (src : Source) (inFunction : Bool) (next : Nat) (ts : List Token) :
    Except ParseError (Reading (Numbered (List Stmt)) ts.length) := do
  let ⟨_, r₁, h⟩ ← expect src.stop (.symbol .colon) ts
  match r₁, h with
  | ⟨.newline, _⟩ :: r₂, h => do
    let ⟨_, r₃, h₁⟩ ← expect src.stop .indent r₂
    let ⟨body, r₄, h₂⟩ ← readBody src inFunction next r₃
    return ⟨body, r₄, by simp only [List.length_cons] at h; omega⟩
  | r₂, h => do
    let ⟨body, r₃, h₁⟩ ← readLine src inFunction next r₂
    return ⟨body, r₃, by omega⟩
termination_by 4 * ts.length
decreasing_by simp only [List.length_cons] at h; omega

/-- Statements up to the end of an indentation. -/
def readBody (src : Source) (inFunction : Bool) (next : Nat) (ts : List Token) :
    Except ParseError (Reading (Numbered (List Stmt)) ts.length) :=
  match ts with
  | [] => unexpected src.stop [] (.kind .dedent)
  | t :: rest =>
    if t.kind = .dedent then return ⟨([], next), rest, Reading.tail_lt _ rest⟩
    else if t.kind = .eof then unexpected src.stop (t :: rest) (.kind .dedent)
    else do
      let ⟨(s, next), r₁, h⟩ ← readStmt src inFunction next (t :: rest)
      let ⟨(more, next), r₂, h₁⟩ ← readBody src inFunction next r₁
      return ⟨(s ++ more, next), r₂, by omega⟩
termination_by 4 * ts.length + 2
decreasing_by all_goals omega

/-- A statement, or several if it is taken apart. -/
def readStmt (src : Source) (inFunction : Bool) (next : Nat) (ts : List Token) :
    Except ParseError (Reading (Numbered (List Stmt)) ts.length) :=
  match ts with
  | ⟨.keyword .if_, _⟩ :: rest => do
    let ⟨(s, next), r₁, h⟩ ← readIf src inFunction next rest
    return ⟨([s], next), r₁, by simp only [List.length_cons]; omega⟩
  | ⟨.keyword .while_, _⟩ :: rest => do
    let ⟨cond, r₁, h⟩ ← readExpr src.stop rest
    let ⟨(body, next), r₂, h₁⟩ ← readBlock src inFunction next r₁
    return ⟨([.whileLoop cond body], next), r₂, by simp only [List.length_cons]; omega⟩
  | ⟨.keyword .for_, _⟩ :: rest => do
    let ⟨name, r₁, h⟩ ← expectIdent src.stop rest
    let ⟨_, r₂, h₁⟩ ← expect src.stop (.keyword .in_) r₁
    let ⟨iterable, r₃, h₂⟩ ← readExpr src.stop r₂
    let ⟨(body, next), r₄, h₃⟩ ← readBlock src inFunction next r₃
    return ⟨([.forLoop name iterable body], next), r₄, by simp only [List.length_cons]; omega⟩
  | ⟨.keyword .def_, pos⟩ :: rest =>
    throw ⟨.nestedFunction, ⟨.keyword .def_, pos⟩, ⟨.keyword .def_, pos⟩ :: rest⟩
  | ts => readLine src inFunction next ts
termination_by 4 * ts.length + 1

/-- What follows `if` or `elif`. An `elif` is a block of one statement. -/
def readIf (src : Source) (inFunction : Bool) (next : Nat) (ts : List Token) :
    Except ParseError (Reading (Numbered Stmt) ts.length) := do
  let ⟨cond, r₁, h⟩ ← readExpr src.stop ts
  let ⟨(body, next), r₂, h₁⟩ ← readBlock src inFunction next r₁
  match r₂, h₁ with
  | ⟨.keyword .elif, _⟩ :: r₃, h₁ => do
    let ⟨(s, next), r₄, h₂⟩ ← readIf src inFunction next r₃
    return ⟨(.ifElse cond body (some [s]), next), r₄, by
      simp only [List.length_cons] at h₁; omega⟩
  | ⟨.keyword .else_, _⟩ :: r₃, h₁ => do
    let ⟨(orelse, next), r₄, h₂⟩ ← readBlock src inFunction next r₃
    return ⟨(.ifElse cond body (some orelse), next), r₄, by
      simp only [List.length_cons] at h₁; omega⟩
  | r₃, h₁ => return ⟨(.ifElse cond body none, next), r₃, by omega⟩
termination_by 4 * ts.length
decreasing_by
  · omega
  all_goals simp only [List.length_cons] at h₁; omega

end

/-! ## Functions and programs -/

/-- Parameter names up to the closing parenthesis. A comma may follow the last one. -/
def readParams (stop : Token) (ts : List Token) :
    Except ParseError (Reading (List String) ts.length) :=
  match ts with
  | ⟨.symbol .closeParen, _⟩ :: rest => .ok ⟨[], rest, Reading.tail_lt _ rest⟩
  | ts => do
    let ⟨name, r₁, h⟩ ← expectIdent stop ts
    match r₁, h with
    | ⟨.symbol .comma, _⟩ :: r₂, h => do
      let ⟨names, r₃, h₁⟩ ← readParams stop r₂
      return ⟨name :: names, r₃, by simp only [List.length_cons] at h; omega⟩
    | r₂, h => do
      let ⟨_, r₃, h₁⟩ ← expect stop (.symbol .closeParen) r₂
      return ⟨[name], r₃, by omega⟩
termination_by ts.length
decreasing_by simp only [List.length_cons] at h; omega

/-- A function definition. -/
def readFunction (src : Source) (next : Nat) (ts : List Token) :
    Except ParseError (Reading (Numbered Stmt) ts.length) := do
  let ⟨_, r₁, h⟩ ← expect src.stop (.keyword .def_) ts
  let ⟨name, r₂, h₁⟩ ← expectIdent src.stop r₁
  let ⟨_, r₃, h₂⟩ ← expect src.stop (.symbol .openParen) r₂
  let ⟨params, r₄, h₃⟩ ← readParams src.stop r₃
  let ⟨(body, next), r₅, h₄⟩ ← readBlock src true next r₄
  return ⟨(.funcDef name params body, next), r₅, by omega⟩

/-- Functions and statements up to the end of the input. -/
def readProgram (src : Source) (next : Nat) (ts : List Token) : Except ParseError Program :=
  match ts with
  | [] => .ok []
  | t :: rest =>
    if t.kind = .eof then .ok []
    else if t.kind = .newline then readProgram src next rest
    else if t.kind = .keyword .def_ then do
      let ⟨(f, next), r₁, shorter⟩ ← readFunction src next (t :: rest)
      have := shorter
      return f :: (← readProgram src next r₁)
    else do
      let ⟨(s, next), r₁, shorter⟩ ← readStmt src false next (t :: rest)
      have := shorter
      return s ++ (← readProgram src next r₁)
termination_by ts.length
decreasing_by
  · exact Nat.lt_succ_self _
  all_goals assumption

/-- The identifiers among tokens. -/
def identifiers (ts : List Token) : List String :=
  ts.filterMap fun t =>
    match t.kind with
    | .ident name => some name
    | _ => none

/-- The tokens before the first one that ends the input. -/
def beforeEnd (ts : List Token) : List Token := ts.takeWhile (·.kind ≠ .eof)

/-- The token that ends the input. Where there is none, it stands at the place of the last token. -/
def endToken (ts : List Token) : Token :=
  (ts.find? (·.kind = .eof)).getD ⟨.eof, (ts.getLast?.map (·.pos)).getD .start⟩

def Source.ofTokens (ts : List Token) : Source := ⟨endToken ts, identifiers ts⟩

/-- The program that tokens spell. Nothing after the end of the input is read. -/
def parse (ts : List Token) : Except ParseError Program :=
  readProgram (.ofTokens ts) 0 (beforeEnd ts)

/-- The expression that tokens start with. -/
def parseExpr (ts : List Token) : Except ParseError Expr :=
  (readExpr (endToken ts) (beforeEnd ts)).map (·.value)

end Braces
