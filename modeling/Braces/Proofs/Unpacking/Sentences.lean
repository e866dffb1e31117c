import Braces.Proofs.Emission.Variables
import Braces.Proofs.Syntax.Phrases
import Braces.Stmt.Read

/-!
# Sentences

The statements of a program as its tokens spell them, with tuple assignments among them, and what is
left when those are taken apart. Each target of a tuple assignment comes with its value and with the
variable that holds the value until the target is stored to. Which tokens spell which sentences is
said without these variables: they are not in the text.
-/

namespace Braces

/-- What can be stored to. -/
inductive Place where
  | name (x : String)
  | item (list position : Expr)

namespace Place

def expr : Place → Expr
  | .name x => .var x
  | .item list position => .index list position

def store (value : Expr) : Place → Stmt
  | .name x => .assign x value
  | .item list position => .assignAt list position value

end Place

theorem storeTo?_eq_some_iff {target value : Expr} {s : Stmt} :
    storeTo? target value = some s ↔
      ∃ place : Place, place.expr = target ∧ place.store value = s := by
  constructor
  · intro h
    unfold storeTo? at h
    split at h
    · exact ⟨.name _, rfl, Option.some.inj h⟩
    · exact ⟨.item _ _, rfl, Option.some.inj h⟩
    · cases h
  · rintro ⟨place, rfl, rfl⟩
    cases place <;> rfl

/-- A target of a tuple assignment, its value, and the variable that holds the value in between. -/
structure Row where
  target : Place
  value : Expr
  temp : String

namespace Row

/-- The variables that a row reads or stores to, apart from the one in between. -/
def names (row : Row) : List String := row.target.expr.vars ++ row.value.vars

/-- All values go to the variables in between, in order, and from there to the targets, in order. -/
def apart (rows : List Row) : List Stmt :=
  rows.map (fun row => .assign row.temp row.value) ++
    rows.map fun row => row.target.store (.var row.temp)

end Row

/-- A statement as it is written. -/
inductive Sentence where
  | plain (s : Stmt)
  | unpack (rows : List Row)
  | ifElse (cond : Expr) (body : List Sentence) (orelse : Option (List Sentence))
  | whileLoop (cond : Expr) (body : List Sentence)
  | forLoop (name : String) (iterable : Expr) (body : List Sentence)
  | funcDef (name : String) (params : List String) (body : List Sentence)

namespace Sentence

mutual

/-- The statements that a sentence stands for. -/
def lower : Sentence → List Stmt
  | .plain s => [s]
  | .unpack rows => Row.apart rows
  | .ifElse cond body orelse => [.ifElse cond (lowerAll body) (lowerElse orelse)]
  | .whileLoop cond body => [.whileLoop cond (lowerAll body)]
  | .forLoop name iterable body => [.forLoop name iterable (lowerAll body)]
  | .funcDef name params body => [.funcDef name params (lowerAll body)]

def lowerAll : List Sentence → List Stmt
  | [] => []
  | s :: rest => s.lower ++ lowerAll rest

def lowerElse : Option (List Sentence) → Option (List Stmt)
  | none => none
  | some body => some (lowerAll body)

end

mutual

/-- The tuple assignments of a sentence, at any depth and in order. -/
def unpackings : Sentence → List (List Row)
  | .plain _ => []
  | .unpack rows => [rows]
  | .ifElse _ body orelse => unpackingsIn body ++ unpackingsInElse orelse
  | .whileLoop _ body | .forLoop _ _ body | .funcDef _ _ body => unpackingsIn body

def unpackingsIn : List Sentence → List (List Row)
  | [] => []
  | s :: rest => s.unpackings ++ unpackingsIn rest

def unpackingsInElse : Option (List Sentence) → List (List Row)
  | none => []
  | some body => unpackingsIn body

end

/-- The variables that hold values in between, in order. -/
def temps (ss : List Sentence) : List String := (unpackingsIn ss).flatten.map (·.temp)

theorem lowerAll_append (ss ss' : List Sentence) :
    lowerAll (ss ++ ss') = lowerAll ss ++ lowerAll ss' := by
  induction ss with
  | nil => rfl
  | cons s ss ih => rw [List.cons_append, lowerAll, lowerAll, ih, List.append_assoc]

theorem unpackingsIn_append (ss ss' : List Sentence) :
    unpackingsIn (ss ++ ss') = unpackingsIn ss ++ unpackingsIn ss' := by
  induction ss with
  | nil => rfl
  | cons s ss ih => rw [List.cons_append, unpackingsIn, unpackingsIn, ih, List.append_assoc]

theorem lowerAll_singleton (s : Sentence) : lowerAll [s] = s.lower := by
  rw [lowerAll, lowerAll, List.append_nil]

theorem unpackingsIn_singleton (s : Sentence) : unpackingsIn [s] = s.unpackings := by
  rw [unpackingsIn, unpackingsIn, List.append_nil]

theorem temps_append (ss ss' : List Sentence) : temps (ss ++ ss') = temps ss ++ temps ss' := by
  rw [temps, temps, temps, unpackingsIn_append, List.flatten_append, List.map_append]

/-! ## Which tokens spell them -/

/-- A sentence on a line. Several targets, or a comma after the only one, make a tuple
assignment. -/
inductive Simple : List Kind → Sentence → Prop
  | unpack {ks ks₁ ks₂ first more rows} : Phrase 1 ks first → Phrases ks₁ more →
      Phrases ks₂ (rows.map (·.value)) → rows.map (·.target.expr) = first :: more →
      Simple (ks ++ .symbol .comma :: (ks₁ ++ .symbol .equal :: ks₂)) (.unpack rows)
  | assign {ks ks₁ value} {place : Place} : Phrase 1 ks place.expr → Phrase 1 ks₁ value →
      Simple (ks ++ .symbol .equal :: ks₁) (.plain (place.store value))
  | update {ks k op ks₁ value} {place : Place} : Phrase 1 ks place.expr → augmented? k = some op →
      Phrase 1 ks₁ value →
      Simple (ks ++ k :: ks₁) (.plain (place.store (.combine op place.expr value)))
  | eval {ks e} : Phrase 1 ks e → Simple ks (.plain (.eval e))
  | print {ks args} : Phrases ks args →
      Simple (.keyword .print :: .symbol .openParen :: (ks ++ [.symbol .closeParen]))
        (.plain (.print args))
  | ret : Simple [.keyword .return_] (.plain (.ret none))
  | retValue {ks e} : Phrase 1 ks e → Simple (.keyword .return_ :: ks) (.plain (.ret (some e)))
  | pass : Simple [.keyword .pass] (.plain .pass)
  | break_ : Simple [.keyword .break_] (.plain .break_)
  | continue_ : Simple [.keyword .continue_] (.plain .continue_)

/-- Further sentences of a line. A semicolon may follow the last one. -/
inductive Later : List Kind → List Sentence → Prop
  | none : Later [] []
  | closed : Later [.symbol .semicolon] []
  | more {ks ks' s ss} : Simple ks s → Later ks' ss →
      Later (.symbol .semicolon :: (ks ++ ks')) (s :: ss)

/-- The end of a line, and what is left after it. A line also ends where its block does, or the
text. -/
inductive LineEnd : List Kind → List Kind → Prop
  | newline (rest) : LineEnd (.newline :: rest) rest
  | dedent (rest) : LineEnd (.dedent :: rest) (.dedent :: rest)
  | eof (rest) : LineEnd (.eof :: rest) (.eof :: rest)
  | nothing : LineEnd [] []

/-- The sentences of a line at the start of a text, and the rest of the text. -/
inductive Line : List Kind → List Sentence → List Kind → Prop
  | intro {ks ks' after s ss rest} : Simple ks s → Later ks' ss → LineEnd after rest →
      Line (ks ++ (ks' ++ after)) (s :: ss) rest

mutual

/-- A block: an indented body, or sentences on the same line. -/
inductive Block : List Kind → List Sentence → List Kind → Prop
  | indented {ks ss rest} : Body ks ss rest →
      Block (.symbol .colon :: .newline :: .indent :: ks) ss rest
  | inline {ks ss rest} : Line ks ss rest → Block (.symbol .colon :: ks) ss rest

/-- Sentences up to the end of an indentation. -/
inductive Body : List Kind → List Sentence → List Kind → Prop
  | done (rest) : Body (.dedent :: rest) [] rest
  | more {ks after ss ss' rest} :
      Written ks ss after → Body after ss' rest → Body ks (ss ++ ss') rest

/-- A compound sentence, or a line. -/
inductive Written : List Kind → List Sentence → List Kind → Prop
  | branch {ks s rest} : Branch ks s rest → Written (.keyword .if_ :: ks) [s] rest
  | whileLoop {ks after cond body rest} : Phrase 1 ks cond → Block after body rest →
      Written (.keyword .while_ :: (ks ++ after)) [.whileLoop cond body] rest
  | forLoop {name ks after iterable body rest} : Phrase 1 ks iterable → Block after body rest →
      Written (.keyword .for_ :: .ident name :: .keyword .in_ :: (ks ++ after))
        [.forLoop name iterable body] rest
  | line {ks ss rest} : Line ks ss rest → Written ks ss rest

/-- What follows `if` or `elif`. -/
inductive Branch : List Kind → Sentence → List Kind → Prop
  | only {ks after cond body rest} : Phrase 1 ks cond → Block after body rest →
      Branch (ks ++ after) (.ifElse cond body none) rest
  | elseIf {ks after after' cond body s rest} : Phrase 1 ks cond →
      Block after body (.keyword .elif :: after') → Branch after' s rest →
      Branch (ks ++ after) (.ifElse cond body (some [s])) rest
  | otherwise {ks after after' cond body orelse rest} : Phrase 1 ks cond →
      Block after body (.keyword .else_ :: after') → Block after' orelse rest →
      Branch (ks ++ after) (.ifElse cond body (some orelse)) rest

end

/-- Parameters up to the closing parenthesis. A comma may follow the last one. -/
inductive Params : List Kind → List String → List Kind → Prop
  | none (rest) : Params (.symbol .closeParen :: rest) [] rest
  | last (x rest) : Params (.ident x :: .symbol .closeParen :: rest) [x] rest
  | more {x ks xs rest} :
      Params ks xs rest → Params (.ident x :: .symbol .comma :: ks) (x :: xs) rest

/-- The sentences of a text. -/
inductive Text : List Kind → List Sentence → Prop
  | done : Text [] []
  | eof (rest) : Text (.eof :: rest) []
  | blank {ks ss} : Text ks ss → Text (.newline :: ks) ss
  | function {name ks params after body rest ss} : Params ks params after → Block after body rest →
      Text rest ss →
      Text (.keyword .def_ :: .ident name :: .symbol .openParen :: ks)
        (.funcDef name params body :: ss)
  | free {ks ss rest ss'} : Written ks ss rest → Text rest ss' → Text ks (ss ++ ss')

end Sentence

end Braces
