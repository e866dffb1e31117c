import Braces.Double

/-!
# Tokens

The kinds of token with their spellings, and tokens with their place in the text. A layout kind
(`newline`, `indent`, `dedent`, `eof`) has no spelling of its own. Text is read with tables of its
own, which list the words and the symbols by their texts; that they say the same as the spellings is
proved beside them.
-/

namespace Braces

/-- A place in the text. Lines and columns count from one, columns in code points. -/
structure Pos where
  line : Nat
  column : Nat
  deriving DecidableEq, Repr, Inhabited

namespace Pos

def start : Pos := ⟨1, 1⟩

/-- The place after one character. -/
def next (p : Pos) (c : Char) : Pos :=
  if c = '\n' then ⟨p.line + 1, 1⟩ else ⟨p.line, p.column + 1⟩

/-- The place after some text. -/
def after (p : Pos) (cs : List Char) : Pos := cs.foldl next p

theorem after_append (p : Pos) (as bs : List Char) : p.after (as ++ bs) = (p.after as).after bs :=
  List.foldl_append

/-- On one line, every character is a column. -/
theorem after_of_newline_notMem {cs : List Char} (h : '\n' ∉ cs) (p : Pos) :
    p.after cs = ⟨p.line, p.column + cs.length⟩ := by
  induction cs generalizing p with
  | nil => rfl
  | cons c cs ih =>
    rw [List.mem_cons, not_or] at h
    have hnext : p.next c = ⟨p.line, p.column + 1⟩ := if_neg (Ne.symm h.1)
    show (p.next c).after cs = _
    rw [hnext, ih h.2, List.length_cons, Nat.add_assoc, Nat.add_comm 1]

def describe (p : Pos) : String := s!"line {p.line}, column {p.column}"

end Pos

inductive Keyword where
  | def_ | if_ | elif | else_ | while_ | for_ | in_ | return_ | print
  | and | or | not | pass | break_ | continue_
  deriving DecidableEq, Repr

namespace Keyword

def spelling : Keyword → String
  | def_ => "def"
  | if_ => "if"
  | elif => "elif"
  | else_ => "else"
  | while_ => "while"
  | for_ => "for"
  | in_ => "in"
  | return_ => "return"
  | print => "print"
  | and => "and"
  | or => "or"
  | not => "not"
  | pass => "pass"
  | break_ => "break"
  | continue_ => "continue"

def all : List Keyword :=
  [def_, if_, elif, else_, while_, for_, in_, return_, print, and, or, not, pass, break_, continue_]

theorem mem_all (k : Keyword) : k ∈ all := by cases k <;> decide

end Keyword

inductive Symbol where
  | plus | minus | star | slash | doubleSlash | percent
  | equal | plusEqual | minusEqual | starEqual | slashEqual | doubleSlashEqual | percentEqual
  | doubleEqual | notEqual | lessThan | lessEqual | greaterThan | greaterEqual
  | openParen | closeParen | openSquare | closeSquare | comma | colon | semicolon
  deriving DecidableEq, Repr

namespace Symbol

def spelling : Symbol → String
  | plus => "+"
  | minus => "-"
  | star => "*"
  | slash => "/"
  | doubleSlash => "//"
  | percent => "%"
  | equal => "="
  | plusEqual => "+="
  | minusEqual => "-="
  | starEqual => "*="
  | slashEqual => "/="
  | doubleSlashEqual => "//="
  | percentEqual => "%="
  | doubleEqual => "=="
  | notEqual => "!="
  | lessThan => "<"
  | lessEqual => "<="
  | greaterThan => ">"
  | greaterEqual => ">="
  | openParen => "("
  | closeParen => ")"
  | openSquare => "["
  | closeSquare => "]"
  | comma => ","
  | colon => ":"
  | semicolon => ";"

/-- All symbols, longer spellings first, so that the first one a text starts with is the longest. -/
def all : List Symbol :=
  [doubleSlashEqual,
    plusEqual, minusEqual, starEqual, slashEqual, percentEqual, doubleSlash, doubleEqual, notEqual,
    lessEqual, greaterEqual,
    plus, minus, star, slash, percent, equal, lessThan, greaterThan,
    openParen, closeParen, openSquare, closeSquare, comma, colon, semicolon]

theorem mem_all (s : Symbol) : s ∈ all := by cases s <;> decide

end Symbol

/-- What a token is, with its value. -/
inductive Kind where
  | int (n : Int)
  | float (x : Double)
  | str (s : String)
  | bool (b : Bool)
  | ident (name : String)
  | keyword (k : Keyword)
  | symbol (s : Symbol)
  | newline
  | indent
  | dedent
  | eof
  deriving DecidableEq, Repr, Inhabited

namespace Kind

/-- The fixed spelling of a keyword or symbol. -/
def lexeme? : Kind → Option String
  | keyword k => some k.spelling
  | symbol s => some s.spelling
  | _ => none

/-- How messages name a kind. -/
def describe : Kind → String
  | int n => s!"integer {n}"
  | float x => "float " ++ x.text
  | str s => s!"string '{s}'"
  | bool true => "'True'"
  | bool false => "'False'"
  | ident name => s!"identifier '{name}'"
  | keyword k => s!"'{k.spelling}'"
  | symbol s => s!"'{s.spelling}'"
  | newline => "newline"
  | indent => "indent"
  | dedent => "dedent"
  | eof => "end of input"

end Kind

/-! ## Tables to read with -/

/-- The value of a key in a table is the first value that has this key by another account. -/
theorem lookup_eq_find? {α β : Type} [BEq α] {table : List (α × β)} {key : α} {p : β → Bool}
    (h : ∀ e ∈ table, p e.2 = (key == e.1)) : table.lookup key = (table.map Prod.snd).find? p := by
  induction table with
  | nil => rfl
  | cons e table ih =>
    obtain ⟨k, v⟩ := e
    have hk : p v = (key == k) := h (k, v) List.mem_cons_self
    rw [List.lookup_cons, List.map_cons, List.find?_cons, hk,
      ih fun e he => h e (List.mem_cons_of_mem _ he)]

/-- The words that are no identifiers. -/
def words : List (String × Kind) :=
  [("def", .keyword .def_),
    ("if", .keyword .if_),
    ("elif", .keyword .elif),
    ("else", .keyword .else_),
    ("while", .keyword .while_),
    ("for", .keyword .for_),
    ("in", .keyword .in_),
    ("return", .keyword .return_),
    ("print", .keyword .print),
    ("and", .keyword .and),
    ("or", .keyword .or),
    ("not", .keyword .not),
    ("pass", .keyword .pass),
    ("break", .keyword .break_),
    ("continue", .keyword .continue_),
    ("True", .bool true),
    ("False", .bool false)]

/-- The words are the lexemes of the keywords, and the two truth values. -/
theorem words_eq : words = Keyword.all.map (fun k => (k.spelling, .keyword k)) ++
    [("True", .bool true), ("False", .bool false)] :=
  rfl

theorem lookup_words (word : String) : words.lookup word =
    ((Keyword.all.find? (·.spelling = word)).map .keyword).or
      (if word = "True" then some (.bool true) else if word = "False" then some (.bool false)
        else none) := by
  have hkeywords : (Keyword.all.map fun k => (k.spelling, Kind.keyword k)).lookup word =
      (Keyword.all.find? (·.spelling = word)).map .keyword := by
    rw [lookup_eq_find? (p := fun k => k.lexeme? = some word), List.map_map, List.find?_map]
    · simp [Function.comp_def, Kind.lexeme?]
    · intro e he
      obtain ⟨k, -, rfl⟩ := List.mem_map.mp he
      rw [Bool.eq_iff_iff, decide_eq_true_eq, beq_iff_eq]
      exact ⟨fun heq => (Option.some.inj heq).symm, fun heq => congrArg some heq.symm⟩
  have htruths : [("True", Kind.bool true), ("False", .bool false)].lookup word =
      if word = "True" then some (.bool true) else if word = "False" then some (.bool false)
        else none := by
    by_cases htrue : word = "True"
    · simp [htrue]
    by_cases hfalse : word = "False"
    · rw [hfalse]
      rfl
    · rw [if_neg htrue, if_neg hfalse]
      exact List.lookup_eq_none_iff.mpr (by simp [htrue, hfalse])
  rw [words_eq, List.lookup_append, hkeywords, htruths]

namespace Symbol

/-- The symbols of three characters. -/
def triples : List (List Char × Symbol) := [("//=".toList, doubleSlashEqual)]

/-- The symbols of two characters. -/
def pairs : List (List Char × Symbol) :=
  [("+=".toList, plusEqual),
    ("-=".toList, minusEqual),
    ("*=".toList, starEqual),
    ("/=".toList, slashEqual),
    ("%=".toList, percentEqual),
    ("//".toList, doubleSlash),
    ("==".toList, doubleEqual),
    ("!=".toList, notEqual),
    ("<=".toList, lessEqual),
    (">=".toList, greaterEqual)]

/-- The symbols of one character. -/
def singles : List (List Char × Symbol) :=
  [("+".toList, plus),
    ("-".toList, minus),
    ("*".toList, star),
    ("/".toList, slash),
    ("%".toList, percent),
    ("=".toList, equal),
    ("<".toList, lessThan),
    (">".toList, greaterThan),
    ("(".toList, openParen),
    (")".toList, closeParen),
    ("[".toList, openSquare),
    ("]".toList, closeSquare),
    (",".toList, comma),
    (":".toList, colon),
    (";".toList, semicolon)]

/-- The symbol that the first characters of a text are, if it is one of a table. -/
def lookupAt (table : List (List Char × Symbol)) (n : Nat) (cs : List Char) :
    Option (Symbol × Nat) :=
  (table.lookup (cs.take n)).map (·, n)

/-- The longest symbol that a text starts with, and its length. -/
def atStart? (cs : List Char) : Option (Symbol × Nat) :=
  (lookupAt triples 3 cs).or ((lookupAt pairs 2 cs).or (lookupAt singles 1 cs))

/-- A table whose keys are the lexemes of its symbols finds the lexeme that the text starts with. -/
theorem lookupAt_eq {table : List (List Char × Symbol)} {n : Nat}
    (h : ∀ e ∈ table, e.1 = e.2.spelling.toList ∧ e.1.length = n) (cs : List Char) :
    lookupAt table n cs =
      ((table.map Prod.snd).find? (·.spelling.toList.isPrefixOf cs)).map
        fun s => (s, s.spelling.toList.length) := by
  have hfind : table.lookup (cs.take n) =
      (table.map Prod.snd).find? (·.spelling.toList.isPrefixOf cs) := by
    refine lookup_eq_find? fun e he => ?_
    obtain ⟨hkey, rfl⟩ := h e he
    rw [← hkey, Bool.eq_iff_iff, List.isPrefixOf_iff_prefix, List.prefix_iff_eq_take, beq_iff_eq]
    exact eq_comm
  rw [lookupAt, hfind]
  refine Option.map_congr fun s hs => ?_
  obtain ⟨e, he, rfl⟩ := List.mem_map.mp (List.mem_of_find?_eq_some hs)
  rw [← (h e he).1, (h e he).2]

theorem all_eq : all = triples.map Prod.snd ++ (pairs.map Prod.snd ++ singles.map Prod.snd) := rfl

/-- The tables find the first of all symbols, the longest ones first, whose lexeme the text starts
with. -/
theorem atStart?_eq (cs : List Char) :
    atStart? cs = (all.find? (·.spelling.toList.isPrefixOf cs)).map
      fun s => (s, s.spelling.toList.length) := by
  have htriples : ∀ e ∈ triples, e.1 = e.2.spelling.toList ∧ e.1.length = 3 := by decide
  have hpairs : ∀ e ∈ pairs, e.1 = e.2.spelling.toList ∧ e.1.length = 2 := by decide
  have hsingles : ∀ e ∈ singles, e.1 = e.2.spelling.toList ∧ e.1.length = 1 := by decide
  rw [atStart?, lookupAt_eq htriples, lookupAt_eq hpairs, lookupAt_eq hsingles, all_eq,
    List.find?_append, List.find?_append, Option.map_or, Option.map_or]

end Symbol

structure Token where
  kind : Kind
  pos : Pos
  deriving DecidableEq, Repr, Inhabited

def Token.describe (t : Token) : String := t.kind.describe ++ " at " ++ t.pos.describe

end Braces
