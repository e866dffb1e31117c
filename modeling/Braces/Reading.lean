import Braces.Token

/-!
# Reading tokens

What the readers of expressions and statements share: the failures, and the result of reading
something off the front of a token list, which carries the fact that tokens were used up. The token
that ends the input is kept apart from the list, so nothing can be read past it.
-/

namespace Braces

/-- What would have been read. -/
inductive Expected where
  | kind (k : Kind)
  | identifier
  | expression
  | endOfLine
  deriving DecidableEq, Repr

def Expected.describe : Expected → String
  | kind k => k.describe
  | identifier => "identifier"
  | expression => "expression"
  | endOfLine => "end of line"

/-- Functions that have nodes of their own. -/
inductive Builtin where
  | len | range
  deriving DecidableEq, Repr

namespace Builtin

def name : Builtin → String
  | len => "len"
  | range => "range"

/-- The numbers of arguments, as messages give them. -/
def arity : Builtin → String
  | len => "1"
  | range => "1 to 3"

end Builtin

/-- Why tokens cannot be read. -/
inductive ParseFault where
  | unexpected (expected : Expected)
  | nestedFunction
  | invalidTarget
  | returnOutsideFunction
  | wrongArity (builtin : Builtin) (given : Nat)
  | unbalanced (targets values : Nat)
  deriving DecidableEq, Repr

/-- A failure names the token at fault and keeps what was not yet read. -/
structure ParseError where
  fault : ParseFault
  token : Token
  unread : List Token
  deriving DecidableEq, Repr

def ParseError.message (e : ParseError) : String :=
  let found := e.token.describe
  match e.fault with
  | .unexpected expected => s!"expected {expected.describe}, found {found}"
  | .nestedFunction => s!"nested function definitions are not supported, found {found}"
  | .invalidTarget => s!"cannot assign to expression starting with {found}"
  | .returnOutsideFunction => s!"'return' outside function, found {found}"
  | .wrongArity builtin given =>
    s!"{builtin.name}() takes {builtin.arity} argument(s) but {given} were given, at {found}"
  | .unbalanced targets values =>
    s!"cannot unpack {values} value(s) into {targets} target(s), at {found}"

/-- Something read, and the rest, of fewer than `n` tokens. -/
structure Reading (α : Type) (n : Nat) where
  value : α
  rest : List Token
  shorter : rest.length < n

namespace Reading

variable {α : Type}

/-- A reading of a shorter list is one of a longer list. -/
def widen {m n : Nat} (r : Reading α m) (h : m ≤ n) : Reading α n :=
  ⟨r.value, r.rest, Nat.lt_of_lt_of_le r.shorter h⟩

/-- The value and the rest. -/
def pair {n : Nat} (r : Reading α n) : α × List Token := (r.value, r.rest)

/-- Nothing is left of nothing. -/
theorem nil_lt : ([] : List Token).length < ([] : List Token).length + 1 := Nat.lt_succ_self _

theorem self_lt (ts : List Token) : ts.length < ts.length + 1 := Nat.lt_succ_self _

theorem tail_lt (t : Token) (ts : List Token) : ts.length < (t :: ts).length := Nat.lt_succ_self _

theorem tail_lt_succ (t : Token) (ts : List Token) : ts.length < (t :: ts).length + 1 :=
  Nat.lt_succ_of_lt (tail_lt t ts)

end Reading

/-- The token to be read next. -/
def current (stop : Token) (ts : List Token) : Token := ts.headD stop

def unexpected {α : Type} (stop : Token) (ts : List Token) (expected : Expected) :
    Except ParseError α :=
  .error ⟨.unexpected expected, current stop ts, ts⟩

/-- Reads a token of the given kind. -/
def expect (stop : Token) (k : Kind) (ts : List Token) :
    Except ParseError (Reading Unit ts.length) :=
  match ts with
  | [] => unexpected stop [] (.kind k)
  | t :: rest =>
    if t.kind = k then .ok ⟨(), rest, Reading.tail_lt t rest⟩
    else unexpected stop (t :: rest) (.kind k)

/-- Reads an identifier. -/
def expectIdent (stop : Token) (ts : List Token) : Except ParseError (Reading String ts.length) :=
  match ts with
  | ⟨.ident name, _⟩ :: rest => .ok ⟨name, rest, Reading.tail_lt _ rest⟩
  | ts => unexpected stop ts .identifier

/-- Whether the next token is of the given kind. -/
def startsWith (k : Kind) (ts : List Token) : Bool :=
  match ts with
  | [] => false
  | t :: _ => t.kind = k

end Braces
