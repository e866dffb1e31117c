import Braces.Text.Numeric
import Braces.Token

/-!
# Pieces of source text

Away from the start of a line, source text is a sequence of pieces, each told from its first
characters alone: blanks, comments, line joints, newlines and lexemes. `readPiece` takes the first
one. Its law is that a piece and the rest make up the text, and no piece is empty.
Indentation and nesting are not its concern.
-/

namespace Braces

/-- Why text cannot be read. -/
inductive ScanFault where
  | unexpectedCharacter (c : Char)
  | unterminatedString
  | inconsistentDedent
  | invalidNumber (literal : String)
  deriving DecidableEq, Repr

namespace ScanFault

def describe : ScanFault → String
  | unexpectedCharacter c => s!"unexpected character '{c}'"
  | unterminatedString => "unterminated string literal"
  | inconsistentDedent => "unindent does not match any outer indentation level"
  | invalidNumber literal => s!"invalid numeric literal '{literal}'"

end ScanFault

inductive Piece where
  | newline
  | blank (c : Char)
  | comment (body : List Char)
  | joint
  | lexeme (kind : Kind) (spelling : List Char)
  deriving DecidableEq, Repr

namespace Piece

/-- The characters of a piece. -/
def text : Piece → List Char
  | newline => ['\n']
  | blank c => [c]
  | comment body => '#' :: body
  | joint => ['\\', '\n']
  | lexeme _ spelling => spelling

end Piece

/-- Blanks within a line. -/
def isBlank (c : Char) : Bool := c = ' ' || c = '\t' || c = '\r' || c = '\x0c'

/-- The largest integer literal, the largest signed integer of 64 bits. -/
def maxInteger : Nat := 9223372036854775807

/-- A number: digits, and a fraction after a point. Either side of the point may be empty. -/
def readNumber (cs : List Char) : Except ScanFault (Piece × List Char) :=
  let whole := cs.takeWhile Char.isDigit
  match cs.dropWhile Char.isDigit with
  | '.' :: r =>
    let fraction := r.takeWhile Char.isDigit
    .ok (.lexeme (.float (.ofDigits false whole fraction 0)) (whole ++ '.' :: fraction),
      r.dropWhile Char.isDigit)
  | rest =>
    let value := Double.digitsValue whole
    if value ≤ maxInteger then .ok (.lexeme (.int value) whole, rest)
    else .error (.invalidNumber (String.ofList whole))

/-- The kind of a word: a truth value, a keyword or an identifier. -/
def wordKind (word : String) : Kind := (words.lookup word).getD (.ident word)

def readWord (cs : List Char) : Piece × List Char :=
  let word := cs.takeWhile Text.continuesWord
  (.lexeme (wordKind (String.ofList word)) word, cs.dropWhile Text.continuesWord)

/-- The text before the closing quote, and what follows the quote. A backslash keeps the character
after it, whatever it is, as part of the text; neither may be a newline. -/
def readQuoted (quote : Char) : List Char → Option (List Char × List Char)
  | [] => none
  | c :: r =>
    if c = quote then some ([], r)
    else if c = '\n' then none
    else if c = '\\' then
      match r with
      | [] => none
      | d :: r' =>
        if d = '\n' then none
          else (readQuoted quote r').map fun (value, rest) => (c :: d :: value, rest)
    else (readQuoted quote r).map fun (value, rest) => (c :: value, rest)

/-- A string literal whose opening quote has been taken off. -/
def readString (quote : Char) (cs : List Char) : Except ScanFault (Piece × List Char) :=
  match readQuoted quote cs with
  | some (value, rest) =>
    .ok (.lexeme (.str (String.ofList value)) (quote :: value ++ [quote]), rest)
  | none => .error .unterminatedString

/-- The longest symbol that the text starts with. -/
def readSymbol (c : Char) (r : List Char) : Except ScanFault (Piece × List Char) :=
  match Symbol.atStart? (c :: r) with
  | some (s, n) => .ok (.lexeme (.symbol s) ((c :: r).take n), (c :: r).drop n)
  | none => .error (.unexpectedCharacter c)

/-- A symbol is read by its lexeme. -/
theorem readSymbol_eq (c : Char) (r : List Char) :
    readSymbol c r = match Symbol.all.find? (fun s => s.spelling.toList.isPrefixOf (c :: r)) with
      | some s =>
        .ok (.lexeme (.symbol s) s.spelling.toList, (c :: r).drop s.spelling.toList.length)
      | none => .error (.unexpectedCharacter c) := by
  rw [readSymbol, Symbol.atStart?_eq]
  cases hs : Symbol.all.find? (fun s => s.spelling.toList.isPrefixOf (c :: r)) with
  | none => rfl
  | some s =>
    have hstarts : s.spelling.toList <+: c :: r := by simpa using List.find?_some hs
    simp only [Option.map_some, ← List.prefix_iff_eq_take.mp hstarts]

/-- Whether a number starts here. -/
def startsNumber (c : Char) (r : List Char) : Bool :=
  c.isDigit || (c = '.' && r.head?.any Char.isDigit)

/-- The first piece of a text, which is not empty, and what follows it. -/
def readPiece (c : Char) (r : List Char) : Except ScanFault (Piece × List Char) :=
  if c = '\n' then .ok (.newline, r)
  else if isBlank c then .ok (.blank c, r)
  else if c = '#' then .ok (.comment (r.takeWhile (· ≠ '\n')), r.dropWhile (· ≠ '\n'))
  else if c = '\\' ∧ r.head? = some '\n' then .ok (.joint, r.drop 1)
  else if startsNumber c r then readNumber (c :: r)
  else if Text.startsWord c then .ok (readWord (c :: r))
  else if c = '"' || c = '\'' then readString c r
  else readSymbol c r

/-! ## A piece and the rest make up the text -/

theorem readNumber_text {cs rest : List Char} {p : Piece} (h : readNumber cs = .ok (p, rest)) :
    p.text ++ rest = cs := by
  have whole := List.takeWhile_append_dropWhile (p := Char.isDigit) (l := cs)
  unfold readNumber at h
  split at h
  · next r hr =>
    obtain ⟨rfl, rfl⟩ := Prod.mk.inj (Except.ok.inj h)
    simp only [Piece.text, List.append_assoc, List.cons_append,
      List.takeWhile_append_dropWhile]
    rw [← hr]
    exact whole
  · dsimp only at h
    split at h
    · obtain ⟨rfl, rfl⟩ := Prod.mk.inj (Except.ok.inj h)
      exact whole
    · exact nomatch h

theorem readQuoted_text {quote : Char} {cs value rest : List Char}
    (h : readQuoted quote cs = some (value, rest)) : value ++ quote :: rest = cs := by
  fun_induction readQuoted quote cs generalizing value rest with
  | case1 => exact nomatch h
  | case2 r =>
    obtain ⟨rfl, rfl⟩ := Prod.mk.inj (Option.some.inj h)
    rfl
  | case3 | case4 | case5 => exact nomatch h
  | case6 d r' _ _ _ ih =>
    obtain ⟨⟨v, w⟩, hv, heq⟩ := Option.map_eq_some_iff.mp h
    obtain ⟨rfl, rfl⟩ := Prod.mk.inj heq
    simp [ih hv]
  | case7 c r _ _ _ ih =>
    obtain ⟨⟨v, w⟩, hv, heq⟩ := Option.map_eq_some_iff.mp h
    obtain ⟨rfl, rfl⟩ := Prod.mk.inj heq
    simp [ih hv]

theorem readSymbol_text {c : Char} {r rest : List Char} {p : Piece}
    (h : readSymbol c r = .ok (p, rest)) : p.text ++ rest = c :: r := by
  unfold readSymbol at h
  split at h
  · next s n hs =>
    obtain ⟨rfl, rfl⟩ := Prod.mk.inj (Except.ok.inj h)
    exact List.take_append_drop n (c :: r)
  · exact nomatch h

/-- Nothing is lost or added by taking a piece off. -/
theorem readPiece_text {c : Char} {r rest : List Char} {p : Piece}
    (h : readPiece c r = .ok (p, rest)) : p.text ++ rest = c :: r := by
  unfold readPiece at h
  split at h
  · next hc =>
    obtain ⟨rfl, rfl⟩ := Prod.mk.inj (Except.ok.inj h)
    simp [Piece.text, hc]
  split at h
  · obtain ⟨rfl, rfl⟩ := Prod.mk.inj (Except.ok.inj h)
    rfl
  split at h
  · next hc =>
    obtain ⟨rfl, rfl⟩ := Prod.mk.inj (Except.ok.inj h)
    simp [Piece.text, hc, List.takeWhile_append_dropWhile]
  split at h
  · next hc =>
    obtain ⟨rfl, rfl⟩ := Prod.mk.inj (Except.ok.inj h)
    obtain ⟨rfl, hr⟩ := hc
    cases r with
    | nil => simp at hr
    | cons d r => simp at hr; simp [Piece.text, hr]
  split at h
  · exact readNumber_text h
  split at h
  · obtain ⟨rfl, rfl⟩ := Prod.mk.inj (Except.ok.inj h)
    exact List.takeWhile_append_dropWhile
  split at h
  · unfold readString at h
    split at h
    · next value rest' hq =>
      obtain ⟨rfl, rfl⟩ := Prod.mk.inj (Except.ok.inj h)
      simp [Piece.text, readQuoted_text hq]
    · exact nomatch h
  · exact readSymbol_text h

/-! ## No piece is empty -/

theorem Symbol.spelling_ne_nil (s : Symbol) : s.spelling.toList ≠ [] := by
  cases s <;> simp [Symbol.spelling]

theorem takeWhile_ne_nil {p : Char → Bool} {c : Char} (hc : p c = true) (r : List Char) :
    (c :: r).takeWhile p ≠ [] := by
  simp [hc]

theorem Text.continuesWord_of_startsWord {c : Char} (h : startsWord c = true) :
    continuesWord c = true := by
  simp only [continuesWord, startsWord] at h ⊢
  simp [h]

theorem readNumber_ne_nil {c : Char} {r rest : List Char} {p : Piece}
    (hc : startsNumber c r = true) (h : readNumber (c :: r) = .ok (p, rest)) : p.text ≠ [] := by
  unfold readNumber at h
  split at h
  · obtain ⟨rfl, rfl⟩ := Prod.mk.inj (Except.ok.inj h)
    simp [Piece.text]
  · next hrest =>
    have hd : c.isDigit = true := by
      by_cases hd : c.isDigit = true
      · exact hd
      · simp only [startsNumber, hd, Bool.false_or, Bool.and_eq_true, decide_eq_true_eq] at hc
        exact absurd (by rw [List.dropWhile_cons_of_neg hd, hc.1]) (hrest r)
    dsimp only at h
    split at h
    · obtain ⟨rfl, rfl⟩ := Prod.mk.inj (Except.ok.inj h)
      exact takeWhile_ne_nil hd r
    · exact nomatch h

theorem readPiece_ne_nil {c : Char} {r rest : List Char} {p : Piece}
    (h : readPiece c r = .ok (p, rest)) : p.text ≠ [] := by
  unfold readPiece at h
  split at h
  · obtain ⟨rfl, rfl⟩ := Prod.mk.inj (Except.ok.inj h)
    simp [Piece.text]
  split at h
  · obtain ⟨rfl, rfl⟩ := Prod.mk.inj (Except.ok.inj h)
    simp [Piece.text]
  split at h
  · obtain ⟨rfl, rfl⟩ := Prod.mk.inj (Except.ok.inj h)
    simp [Piece.text]
  split at h
  · obtain ⟨rfl, rfl⟩ := Prod.mk.inj (Except.ok.inj h)
    simp [Piece.text]
  split at h
  · next hc => exact readNumber_ne_nil hc h
  split at h
  · next hc =>
    obtain ⟨rfl, rfl⟩ := Prod.mk.inj (Except.ok.inj h)
    exact takeWhile_ne_nil (Text.continuesWord_of_startsWord hc) r
  split at h
  · unfold readString at h
    split at h
    · obtain ⟨rfl, rfl⟩ := Prod.mk.inj (Except.ok.inj h)
      simp [Piece.text]
    · exact nomatch h
  · rw [readSymbol_eq] at h
    split at h
    · obtain ⟨rfl, rfl⟩ := Prod.mk.inj (Except.ok.inj h)
      exact Symbol.spelling_ne_nil _
    · exact nomatch h

/-- Taking a piece off leaves less text. -/
theorem readPiece_length {c : Char} {r rest : List Char} {p : Piece}
    (h : readPiece c r = .ok (p, rest)) : rest.length < (c :: r).length := by
  have hlen := List.length_pos_iff.mpr (readPiece_ne_nil h)
  rw [← readPiece_text h, List.length_append]
  omega

end Braces
