import Braces.Cpp.Prelude
import Braces.Cpp.Tree

/-!
# The text of target trees

Printing adds nothing of its own: every node has one spelling, and only `group` writes parentheses
around an expression. Statements become lines, indented by the blocks around them.
-/

namespace Braces.Cpp

/-! ## Literals -/

/-- The inside of a string literal: escapes stay as they are, and bare double quotes are escaped. -/
def escapeText : List Char → List Char
  | [] => []
  | ['\\'] => ['\\']
  | '\\' :: c :: r => '\\' :: c :: escapeText r
  | c :: r => if c = '"' then '\\' :: '"' :: escapeText r else c :: escapeText r

def stringLiteral (s : String) : String := String.ofList ('"' :: escapeText s.toList ++ ['"'])

/-- Literals beyond 32 bits are marked as 64-bit ones. -/
def intLiteral (n : Int) : String :=
  if -2147483648 ≤ n ∧ n ≤ 2147483647 then toString n else toString n ++ "LL"

/-! ## Expressions -/

/-- Items separated by commas. -/
def commas (items : List String) : String := ", ".intercalate items

namespace Expr

mutual

def text : Expr → String
  | .int n => intLiteral n
  | .float x => x.text
  | .str s => stringLiteral s
  | .bool b => if b then "true" else "false"
  | .var name => name.text
  | .binary op l r => l.text ++ " " ++ op.cppSymbol ++ " " ++ r.text
  | .unary op e => op.cppSymbol ++ e.text
  | .group e => "(" ++ e.text ++ ")"
  | .helper h args => h.text ++ "(" ++ commas (texts args) ++ ")"
  | .call function args => spell function ++ "(" ++ commas (texts args) ++ ")"
  | .construct ty args => ty.cppName ++ "(" ++ commas (texts args) ++ ")"
  | .cast ty e => "static_cast<" ++ ty.cppName ++ ">(" ++ e.text ++ ")"
  | .size e => e.text ++ ".size()"
  | .vector elements => Ty.list.cppName ++ "\x7b" ++ commas (texts elements) ++ "\x7d"
  | .braces elements => "\x7b" ++ commas (texts elements) ++ "\x7d"
  | .choose cond yes no => cond.text ++ " ? " ++ yes.text ++ " : " ++ no.text

def texts : List Expr → List String
  | [] => []
  | e :: es => e.text :: texts es

end

end Expr

/-! ## Statements -/

def DeclType.text : DeclType → String
  | .auto => "auto"
  | .ty t => t.declaredName

def Advance.text : Advance → String
  | .increment name => name.text ++ "++"
  | .add name stride => name.text ++ " += " ++ stride.text

/-- The indentation of a line within `depth` blocks. -/
def indentation (depth : Nat) : String := String.join (List.replicate depth "    ")

def line (depth : Nat) (s : String) : String := indentation depth ++ s

/-- Items written one after another, with blanks between them. -/
def outputText (items : List Expr) : String :=
  if items.isEmpty then "cout << endl;"
  else "cout << " ++ " << \" \" << ".intercalate (Expr.texts items) ++ " << endl;"

def counterText (counters : List (Name × Expr)) : String :=
  commas (counters.map fun (name, e) => name.text ++ " = " ++ e.text)

mutual

def Stmt.lines (depth : Nat) : Stmt → List String
  | .declare ty name value =>
    [line depth (ty.text ++ " " ++ name.text ++ " = " ++ value.text ++ ";")]
  | .reserve ty name => [line depth (ty.declaredName ++ " " ++ name.text ++ "\x7b\x7d;")]
  | .store target value => [line depth (target.text ++ " = " ++ value.text ++ ";")]
  | .output items => [line depth (outputText items)]
  | .eval e => [line depth (e.text ++ ";")]
  | .ifElse cond body orelse =>
    line depth ("if (" ++ cond.text ++ ") \x7b") ::
      (blockLines (depth + 1) body ++ orelse.lines depth)
  | .whileLoop cond body =>
    line depth ("while (" ++ cond.text ++ ") \x7b") ::
      (blockLines (depth + 1) body ++ [line depth "\x7d"])
  | .forCount counters cond advance body =>
    line depth ("for (" ++ Ty.int.cppName ++ " " ++ counterText counters ++ "; " ++
      cond.text ++ "; " ++ advance.text ++ ") \x7b") ::
      (blockLines (depth + 1) body ++ [line depth "\x7d"])
  | .forEach ty name sequence body =>
    line depth ("for (" ++ ty.text ++ " " ++ name.text ++ " : " ++ sequence.text ++ ") \x7b") ::
      (blockLines (depth + 1) body ++ [line depth "\x7d"])
  | .ret (some e) => [line depth ("return " ++ e.text ++ ";")]
  | .ret none => [line depth "return;"]
  | .retDefault => [line depth "return \x7b\x7d;"]
  | .jump j => [line depth (j.keyword ++ ";")]

def blockLines (depth : Nat) : List Stmt → List String
  | [] => []
  | s :: rest => s.lines depth ++ blockLines depth rest

/-- The end of a conditional, from the brace that closes the block before. -/
def Else.lines (depth : Nat) : Else → List String
  | .nothing => [line depth "\x7d"]
  | .elseIf cond body orelse =>
    line depth ("\x7d else if (" ++ cond.text ++ ") \x7b") ::
      (blockLines (depth + 1) body ++ orelse.lines depth)
  | .block body =>
    line depth "\x7d else \x7b" :: (blockLines (depth + 1) body ++ [line depth "\x7d"])

end

/-! ## Units -/

def Routine.lines (r : Routine) : List String :=
  (r.signature.declaration ++ " \x7b") :: (blockLines 1 r.body ++ ["\x7d"])

/-- Prototypes, and an empty line after them if there are any. -/
def prototypeLines (sigs : List Signature) : List String :=
  if sigs.isEmpty then [] else sigs.map (·.declaration ++ ";") ++ [""]

namespace Unit

/-- The lines after the prelude. -/
def lines (u : Unit) : List String :=
  "" :: (prototypeLines u.prototypes ++ u.routines.flatMap (·.lines ++ [""]) ++
    "int main() \x7b" :: (blockLines 1 u.entry ++ ["\x7d"]))

/-- The text after the prelude. -/
def body (u : Unit) : String := String.join (u.lines.map (· ++ "\n"))

def text (u : Unit) : String := preludeText ++ u.body

end Unit

end Braces.Cpp
