import Braces.Stmt
import Braces.Token

/-!
# Dumps

Tokens and programs written out for inspection. A dump is a tree of labelled nodes, and each node,
list and record of it opens on a line, holds one item a line, and closes on a line.
-/

namespace Braces

/-! ## Quoted text -/

/-- Digits of a code point in base sixteen. -/
def hexDigits (n : Nat) : List Char := Nat.toDigits 16 n

/-- A character in quoted text. Quotes, backslashes and control characters are escaped. -/
def quoteChar (c : Char) : List Char :=
  if c = '"' then ['\\', '"']
  else if c = '\\' then ['\\', '\\']
  else if c = '\n' then ['\\', 'n']
  else if c = '\t' then ['\\', 't']
  else if c = '\r' then ['\\', 'r']
  else if c.toNat = 0 then ['\\', '0']
  else if c.toNat < 0x20 || c.toNat = 0x7f then
    ['\\', 'u', '\x7b'] ++ hexDigits c.toNat ++ ['\x7d']
  else [c]

def quoted (s : String) : String := String.ofList ('"' :: s.toList.flatMap quoteChar ++ ['"'])

/-! ## Labels -/

def BinOp.label : BinOp → String
  | .or => "Or"
  | .and => "And"
  | .equal => "Equal"
  | .notEqual => "NotEqual"
  | .lessThan => "LessThan"
  | .lessEqual => "LessEqual"
  | .greaterThan => "GreaterThan"
  | .greaterEqual => "GreaterEqual"
  | .add => "Add"
  | .sub => "Sub"
  | .mul => "Mul"
  | .div => "Div"
  | .floorDiv => "FloorDiv"
  | .mod => "Mod"

def UnOp.label : UnOp → String
  | .plus => "Plus"
  | .neg => "Neg"
  | .not => "Not"

def Keyword.label : Keyword → String
  | .def_ => "Def"
  | .if_ => "If"
  | .elif => "Elif"
  | .else_ => "Else"
  | .while_ => "While"
  | .for_ => "For"
  | .in_ => "In"
  | .return_ => "Return"
  | .print => "Print"
  | .and => "And"
  | .or => "Or"
  | .not => "Not"
  | .pass => "Pass"
  | .break_ => "Break"
  | .continue_ => "Continue"

def Symbol.label : Symbol → String
  | .plus => "Plus"
  | .minus => "Minus"
  | .star => "Star"
  | .slash => "Slash"
  | .doubleSlash => "DoubleSlash"
  | .percent => "Percent"
  | .equal => "Equal"
  | .plusEqual => "PlusEqual"
  | .minusEqual => "MinusEqual"
  | .starEqual => "StarEqual"
  | .slashEqual => "SlashEqual"
  | .doubleSlashEqual => "DoubleSlashEqual"
  | .percentEqual => "PercentEqual"
  | .doubleEqual => "DoubleEqual"
  | .notEqual => "NotEqual"
  | .lessThan => "LessThan"
  | .lessEqual => "LessEqual"
  | .greaterThan => "GreaterThan"
  | .greaterEqual => "GreaterEqual"
  | .openParen => "OpenParen"
  | .closeParen => "CloseParen"
  | .openSquare => "OpenSquareBrace"
  | .closeSquare => "CloseSquareBrace"
  | .comma => "Comma"
  | .colon => "Colon"
  | .semicolon => "SemiColon"

def Kind.label : Kind → String
  | .int _ => "Int"
  | .float _ => "Float"
  | .str _ => "Str"
  | .bool _ => "Bool"
  | .ident _ => "Ident"
  | .keyword k => k.label
  | .symbol s => s.label
  | .newline => "Newline"
  | .indent => "Indent"
  | .dedent => "Dedent"
  | .eof => "Eof"

def boolText (b : Bool) : String := if b then "true" else "false"

/-! ## Tokens -/

/-- A kind on one line, with its value. -/
def Kind.dump : Kind → String
  | .int n => s!"Int({n})"
  | .float x => "Float(" ++ x.text ++ ")"
  | .str s => "Str(" ++ quoted s ++ ")"
  | .bool b => "Bool(" ++ boolText b ++ ")"
  | .ident name => "Ident(" ++ quoted name ++ ")"
  | k => k.label

def Token.dump (t : Token) : String := s!"{t.pos.line}:{t.pos.column} {t.kind.dump}\n"

/-! ## Trees -/

inductive Dump where
  | leaf (text : String)
  | node (label : String) (fields : List Dump)
  | list (items : List Dump)
  | record (label : String) (fields : List Dump)
  | field (name : String) (value : Dump)

namespace Dump

/-- Lines within something else: indented, with a comma after the last one. -/
def nest : List String → List String
  | [] => []
  | [last] => ["    " ++ last ++ ","]
  | l :: ls => ("    " ++ l) :: nest ls

/-- Puts text before the first line. -/
def lead (text : String) : List String → List String
  | [] => [text]
  | l :: ls => (text ++ l) :: ls

mutual

def lines : Dump → List String
  | .leaf text => [text]
  | .node label fields => (label ++ "(") :: (itemLines fields ++ [")"])
  | .list items => if items.isEmpty then ["[]"] else "[" :: (itemLines items ++ ["]"])
  | .record label fields => (label ++ " \x7b") :: (itemLines fields ++ ["\x7d"])
  | .field name value => lead (name ++ ": ") (lines value)

def itemLines : List Dump → List String
  | [] => []
  | d :: ds => nest d.lines ++ itemLines ds

end

def text (d : Dump) : String := String.join (d.lines.map (· ++ "\n"))

def str (s : String) : Dump := .leaf (quoted s)

end Dump

mutual

def Expr.dump : Expr → Dump
  | .int n => .node "Int" [.leaf (toString n)]
  | .float x => .node "Float" [.leaf x.text]
  | .str s => .node "Str" [.str s]
  | .bool b => .node "Bool" [.leaf (boolText b)]
  | .var name => .node "Var" [.str name]
  | .binary op l r => .node "Binary" [.leaf op.label, l.dump, r.dump]
  | .unary op e => .node "Unary" [.leaf op.label, e.dump]
  | .list elements => .node "List" [.list (dumpExprs elements)]
  | .index target position => .node "Index" [target.dump, position.dump]
  | .call name args => .node "Call" [.str name, .list (dumpExprs args)]
  | .len e => .node "Len" [e.dump]
  | .range start stop step => .node "Range" [start.dump, dumpOption stop, dumpOption step]

def dumpExprs : List Expr → List Dump
  | [] => []
  | e :: es => e.dump :: dumpExprs es

def dumpOption : Option Expr → Dump
  | none => .leaf "None"
  | some e => .node "Some" [e.dump]

end

mutual

def Stmt.dump : Stmt → Dump
  | .assign name value => .node "Assign" [.str name, value.dump]
  | .assignAt target position value =>
    .node "IndexAssign" [target.dump, position.dump, value.dump]
  | .print args => .node "Print" [.list (dumpExprs args)]
  | .ifElse cond body orelse => .node "If" [cond.dump, dumpBlock body, dumpElse orelse]
  | .whileLoop cond body => .node "While" [cond.dump, dumpBlock body]
  | .forLoop name iterable body => .node "For" [.str name, iterable.dump, dumpBlock body]
  | .funcDef name params body =>
    .node "FuncDef" [.record "FuncDef"
      [.field "name" (.str name), .field "params" (.list (params.map .str)),
        .field "body" (dumpBlock body)]]
  | .ret value => .node "Return" [dumpOption value]
  | .eval e => .node "Expr" [e.dump]
  | .pass => .leaf "Pass"
  | .break_ => .leaf "Break"
  | .continue_ => .leaf "Continue"

def dumpStmts : List Stmt → List Dump
  | [] => []
  | s :: rest => s.dump :: dumpStmts rest

def dumpBlock : List Stmt → Dump
  | body => .node "Block" [.list (dumpStmts body)]

def dumpElse : Option (List Stmt) → Dump
  | none => .leaf "None"
  | some body => .node "Some" [dumpBlock body]

end

def Program.dump (p : Program) : Dump := .node "Program" [.list (dumpStmts p)]

end Braces
