import Braces.Token.Piece

/-!
# Scanning

The scanner walks the text piece by piece and adds what no single piece shows: the places of the
tokens, and the layout tokens, which come from the indentation of each logical line. `scan` is the
whole of it. A failure keeps the place and the text that was still unread.
-/

namespace Braces

structure ScanError where
  fault : ScanFault
  pos : Pos
  unread : List Char
  deriving DecidableEq, Repr

def ScanError.message (e : ScanError) : String := e.fault.describe ++ " at " ++ e.pos.describe

/-- The scanner between two pieces. -/
structure Scanner where
  pos : Pos
  /-- Widths of the open indentations, the innermost first. -/
  levels : List Nat
  /-- How many brackets are open. -/
  nesting : Nat
  /-- Whether a logical line starts here. -/
  lineStart : Bool
  /-- Tokens so far, the latest first. -/
  emitted : List Token
  deriving DecidableEq, Repr

namespace Scanner

def start : Scanner := ⟨.start, [], 0, true, []⟩

/-- The width of the innermost open indentation. -/
def level (s : Scanner) : Nat := s.levels.headD 0

def push (s : Scanner) (k : Kind) : Scanner := { s with emitted := ⟨k, s.pos⟩ :: s.emitted }

/-- Ends the line, unless nothing stands on it. -/
def breakLine (s : Scanner) : Scanner :=
  match s.emitted with
  | [] => s
  | t :: _ => if t.kind = .newline then s else s.push .newline

/-- Closes the innermost `n` indentations. -/
def close : Nat → Scanner → Scanner
  | 0, s => s
  | n + 1, s => close n { s.push .dedent with levels := s.levels.tail }

/-! ## Indentation -/

def isIndentation (c : Char) : Bool := c = ' ' || c = '\t' || c = '\x0c'

/-- A tab goes to the next multiple of eight, and a form feed starts the line anew. -/
def widen (width : Nat) (c : Char) : Nat :=
  if c = '\t' then width + (8 - width % 8)
  else if c = '\x0c' then 0
  else width + 1

def indentationWidth (blanks : List Char) : Nat := blanks.foldl widen 0

/-- Whether a line holds nothing but a comment from here on. -/
def startsBlankLine (cs : List Char) : Bool :=
  match cs with
  | [] => true
  | c :: _ => c = '\n' || c = '\r' || c = '#'

/-- How many open indentations are wider than a new line. -/
def excess (s : Scanner) (width : Nat) : Nat := (s.levels.takeWhile (width < ·)).length

/-- Compares the indentation of a line with the open ones, after its blanks have been read. -/
def indentTo (s : Scanner) (width : Nat) (rest : List Char) : Except ScanError Scanner :=
  if s.level < width then .ok { s.push .indent with levels := width :: s.levels }
  else
    let s := s.close (s.excess width)
    if s.level = width then .ok s else .error ⟨.inconsistentDedent, s.pos, rest⟩

/-- What is left after the indentation, if a line starts here. -/
def afterBlanks (s : Scanner) (cs : List Char) : List Char :=
  if s.lineStart then cs.dropWhile isIndentation else cs

/-- Reads the indentation, if a line starts here. Blank lines keep the open indentations. -/
def layout (s : Scanner) (cs : List Char) : Except ScanError Scanner :=
  if s.lineStart then
    let blanks := cs.takeWhile isIndentation
    let rest := cs.dropWhile isIndentation
    let s := { s with pos := s.pos.after blanks, lineStart := false }
    if startsBlankLine rest then .ok s else s.indentTo (indentationWidth blanks) rest
  else .ok s

/-! ## Pieces -/

/-- The number of open brackets after a token. Closing with nothing open leaves it at zero. -/
def nestingAfter (n : Nat) : Kind → Nat
  | .symbol .openParen | .symbol .openSquare => n + 1
  | .symbol .closeParen | .symbol .closeSquare => n - 1
  | _ => n

/-- Takes a piece over. Newlines between brackets do not end a line. -/
def take (s : Scanner) (p : Piece) : Scanner :=
  match p with
  | .newline =>
    let s' := if s.nesting = 0 then s.breakLine else s
    { s' with pos := s.pos.after p.text, lineStart := s.nesting = 0 }
  | .lexeme k _ => { s.push k with pos := s.pos.after p.text, nesting := nestingAfter s.nesting k }
  | .blank _ | .comment _ | .joint => { s with pos := s.pos.after p.text }

/-- Indentation, if a line starts here, and one piece. -/
def step (s : Scanner) (cs : List Char) : Except ScanError (Scanner × List Char) :=
  match s.layout cs, s.afterBlanks cs with
  | .error e, _ => .error e
  | .ok s, [] => .ok (s, [])
  | .ok s, c :: r =>
    match readPiece c r with
    | .error fault => .error ⟨fault, s.pos, c :: r⟩
    | .ok (p, rest) => .ok (s.take p, rest)

theorem length_afterBlanks (s : Scanner) (cs : List Char) :
    (s.afterBlanks cs).length ≤ cs.length := by
  unfold afterBlanks
  split
  · exact (List.dropWhile_sublist _).length_le
  · exact Nat.le_refl _

/-- Every step reads something. -/
theorem step_length {s s' : Scanner} {cs rest : List Char} (hcs : cs ≠ [])
    (h : s.step cs = .ok (s', rest)) : rest.length < cs.length := by
  have hle := s.length_afterBlanks cs
  unfold step at h
  split at h
  · exact nomatch h
  · obtain ⟨_, rfl⟩ := Prod.mk.inj (Except.ok.inj h)
    exact List.length_pos_iff.mpr hcs
  · next hb =>
    rw [hb] at hle
    split at h
    · exact nomatch h
    · next hp =>
      obtain ⟨_, rfl⟩ := Prod.mk.inj (Except.ok.inj h)
      exact Nat.lt_of_lt_of_le (readPiece_length hp) hle

/-- Scans to the end of the text. -/
def run (s : Scanner) (cs : List Char) : Except ScanError Scanner :=
  if hcs : cs = [] then .ok s
  else
    match h : s.step cs with
    | .error e => .error e
    | .ok (s', rest) =>
      have := step_length hcs h
      run s' rest
termination_by cs.length

/-- The tokens, once the text has ended: the last line and all indentations are closed. -/
def finish (s : Scanner) : List Token :=
  let s := s.breakLine
  ((s.close s.levels.length).push .eof).emitted.reverse

end Scanner

/-- The tokens of a text. -/
def scan (source : String) : Except ScanError (List Token) :=
  (Scanner.start.run source.toList).map Scanner.finish

end Braces
