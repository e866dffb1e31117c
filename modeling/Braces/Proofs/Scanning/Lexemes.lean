import Braces.Proofs.Printing.Pieces

/-!
# Lexemes and what stands between them

How each kind of token is spelled, and which text is skipped. Every piece that is read is one or the
other, and where none can be read the text starts with what is at fault.
-/

namespace Braces

/-! ## Spellings -/

/-- How the kinds that are not layout are spelled. A number is a sequence of digits, with a point in
it or not, and a string stands between two quotes of one kind. -/
inductive Kind.SpelledAs : Kind → List Char → Prop
  | fixed {k text} : k.lexeme? = some text → SpelledAs k text.toList
  | bool (b : Bool) : SpelledAs (.bool b) (if b then "True" else "False").toList
  | ident {name} : isIdentifier name = true → SpelledAs (.ident name) name.toList
  | int {digits} : digits ≠ [] → digits.all Char.isDigit = true →
      Double.digitsValue digits ≤ maxInteger → SpelledAs (.int (Double.digitsValue digits)) digits
  | float {whole fraction} : whole ≠ [] ∨ fraction ≠ [] → whole.all Char.isDigit = true →
      fraction.all Char.isDigit = true →
      SpelledAs (.float (.ofDigits false whole fraction 0)) (whole ++ '.' :: fraction)
  | str {quote s} : quote = '"' ∨ quote = '\'' → isQuotable quote s.toList = true →
      SpelledAs (.str s) (quote :: s.toList ++ [quote])

/-- Kinds that have no spelling. -/
def Kind.isLayout : Kind → Bool
  | .newline | .indent | .dedent | .eof => true
  | _ => false

theorem Kind.SpelledAs.isLayout {k : Kind} {text : List Char} (h : k.SpelledAs text) :
    k.isLayout = false := by
  cases h with
  | fixed hk => cases k <;> first | rfl | cases hk
  | bool | ident | int | float | str => rfl

theorem newline_notMem_of_isQuotable {quote : Char} {cs : List Char}
    (h : isQuotable quote cs = true) :
    '\n' ∉ cs := by
  fun_induction isQuotable quote cs with
  | case1 => exact List.not_mem_nil
  | case2 | case3 => cases h
  | case4 d r hc ih =>
    rw [Bool.and_eq_true, decide_eq_true_eq] at h
    simp [h.1.symm, ih h.2]
  | case5 c r hc hslash ih =>
    simp only [Bool.or_eq_true, decide_eq_true_eq, not_or] at hc
    simp [Ne.symm hc.2, ih h]

/-- What never holds of a newline holds of no text with one. -/
theorem newline_notMem_of_all {p : Char → Bool} {cs : List Char} (hp : p '\n' = false)
    (h : cs.all p = true) : '\n' ∉ cs := by
  intro hmem
  rw [List.all_eq_true.mp h _ hmem] at hp
  cases hp

/-- A lexeme stands on one line. -/
theorem Kind.SpelledAs.newline_notMem {k : Kind} {text : List Char} (h : k.SpelledAs text) :
    '\n' ∉ text := by
  cases h with
  | @fixed _ word hk =>
    have hkeywords : ∀ k ∈ Keyword.all, '\n' ∉ k.spelling.toList := by decide
    have hsymbols : ∀ s ∈ Symbol.all, '\n' ∉ s.spelling.toList := by decide
    cases k with
    | keyword k => exact Option.some.inj hk ▸ hkeywords k k.mem_all
    | symbol s => exact Option.some.inj hk ▸ hsymbols s s.mem_all
    | _ => cases hk
  | bool b => cases b <;> decide
  | @ident name hname =>
    have hisName : Cpp.isName name = true := (Bool.and_eq_true_iff.mp hname).1
    unfold Cpp.isName at hisName
    split at hisName
    · cases hisName
    · next c r heq =>
      rw [Bool.and_eq_true] at hisName
      have hword : Text.continuesWord '\n' = false := by decide +kernel
      refine newline_notMem_of_all hword ?_
      rw [heq, List.all_cons, Text.continuesWord_of_startsWord hisName.1, hisName.2]
      rfl
  | int _ hdigits => exact newline_notMem_of_all rfl hdigits
  | float _ hwhole hfraction =>
    have hpoint : '\n' ≠ '.' := by decide
    simp [newline_notMem_of_all rfl hwhole, newline_notMem_of_all rfl hfraction, hpoint]
  | str hquote hquotable =>
    obtain rfl | rfl := hquote <;> simp [newline_notMem_of_isQuotable hquotable]

/-- Text that makes no token, before the rest of the text. A comment goes on to the end of its
line. -/
inductive Skipped : List Char → List Char → Prop
  | blank {c rest} : c = ' ' ∨ c = '\t' ∨ c = '\r' ∨ c = '\x0c' → Skipped [c] rest
  | newline {rest} : Skipped ['\n'] rest
  | joint {rest} : Skipped ['\\', '\n'] rest
  | comment {body rest} : '\n' ∉ body → rest.head?.all (· = '\n') = true →
      Skipped ('#' :: body) rest

/-- What stands first on a line that is not blank. -/
def OpensLine (cs : List Char) : Prop :=
  ∃ c r, cs = c :: r ∧ c ∉ [' ', '\t', '\x0c', '\n', '\r', '#']

/-- The text at which a fault is found. -/
def ScanFault.FoundIn : ScanFault → List Char → Prop
  | .unexpectedCharacter c, cs => cs.head? = some c
  | .unterminatedString, cs => ∃ quote r, cs = quote :: r ∧ (quote = '"' ∨ quote = '\'') ∧
      ∀ value rest, isQuotable quote value = true → r ≠ value ++ quote :: rest
  | .invalidNumber literal, cs => literal.toList <+: cs ∧ literal.toList.all Char.isDigit = true ∧
      maxInteger < Double.digitsValue literal.toList
  | .inconsistentDedent, cs => OpensLine cs

/-! ## What is read -/

/-- The ways to read a piece, or to fail to. -/
inductive PieceRead (c : Char) (r : List Char) : Except ScanFault (Piece × List Char) → Prop
  | newline : c = '\n' → PieceRead c r (.ok (.newline, r))
  | blank : isBlank c = true → PieceRead c r (.ok (.blank c, r))
  | comment : c = '#' →
      PieceRead c r (.ok (.comment (r.takeWhile (· ≠ '\n')), r.dropWhile (· ≠ '\n')))
  | joint : PieceRead c r (.ok (.joint, r.drop 1))
  | number {x} : startsNumber c r = true → readNumber (c :: r) = x → PieceRead c r x
  | word : Text.startsWord c = true → PieceRead c r (.ok (readWord (c :: r)))
  | string {x} : c = '"' ∨ c = '\'' → readString c r = x → PieceRead c r x
  | symbol {x} : readSymbol c r = x → PieceRead c r x

theorem pieceRead (c : Char) (r : List Char) : PieceRead c r (readPiece c r) := by
  unfold readPiece
  split
  · next hc => exact .newline hc
  split
  · next hc => exact .blank hc
  split
  · next hc => exact .comment hc
  split
  · exact .joint
  split
  · next hc => exact .number hc rfl
  split
  · next hc => exact .word hc
  split
  · next hc => exact .string (by simpa using hc) rfl
  · exact .symbol rfl

theorem all_head?_dropWhile (p : Char → Bool) (cs : List Char) :
    (cs.dropWhile p).head?.all (!p ·) = true := by
  have h := List.head?_dropWhile_not p cs
  cases heq : (cs.dropWhile p).head? with
  | none => rfl
  | some c =>
    rw [heq] at h
    simpa using h

/-- The ways to read a number, or to fail to. -/
theorem readNumber_cases {c : Char} {r : List Char} (hc : startsNumber c r = true) :
    (∃ k text rest, readNumber (c :: r) = .ok (.lexeme k text, rest) ∧ k.SpelledAs text) ∨
      ∃ literal, readNumber (c :: r) = .error (.invalidNumber literal) ∧
        (ScanFault.invalidNumber literal).FoundIn (c :: r) := by
  have hwhole : ((c :: r).takeWhile Char.isDigit).all Char.isDigit = true := List.all_takeWhile
  unfold readNumber
  split
  · next rest hr =>
    refine .inl ⟨_, _, _, rfl, .float ?_ hwhole List.all_takeWhile⟩
    by_cases hd : c.isDigit = true
    · exact .inl (takeWhile_ne_nil hd r)
    · -- The number starts with its point, so a digit follows.
      rw [List.dropWhile_cons_of_neg hd, List.cons.injEq] at hr
      obtain ⟨rfl, rfl⟩ := hr
      cases r with
      | nil => cases hc
      | cons d r => exact .inr (takeWhile_ne_nil (by simpa [startsNumber] using hc) r)
  · next hpoint =>
    have hd : c.isDigit = true := by
      by_contra hd
      obtain ⟨rfl, -⟩ : c = '.' ∧ _ := by simpa [startsNumber, hd] using hc
      exact hpoint r (List.dropWhile_cons_of_neg hd)
    dsimp only
    split
    · next hle => exact .inl ⟨_, _, _, rfl, .int (takeWhile_ne_nil hd r) hwhole hle⟩
    · next hgt =>
      refine .inr ⟨_, rfl, ?_⟩
      rw [ScanFault.FoundIn, String.toList_ofList]
      exact ⟨List.takeWhile_prefix _, hwhole, Nat.lt_of_not_le hgt⟩

theorem spelledAs_wordKind {word : String} (h : Cpp.isName word = true) :
    (wordKind word).SpelledAs word.toList := by
  rw [wordKind, lookup_words]
  cases hfind : Keyword.all.find? (·.spelling = word) with
  | some k =>
    have heq : k.spelling = word := by simpa using List.find?_some hfind
    exact .fixed (congrArg some heq)
  | none =>
    have hkeyword : word ∉ Keyword.all.map Keyword.spelling := by
      simpa using List.find?_eq_none.mp hfind
    by_cases htrue : word = "True"
    · subst htrue
      exact .bool true
    by_cases hfalse : word = "False"
    · subst hfalse
      exact .bool false
    rw [if_neg htrue, if_neg hfalse]
    refine .ident ?_
    rw [isIdentifier, h, Bool.true_and, decide_eq_true_eq, reservedWords, List.mem_cons,
      List.mem_cons]
    exact not_or.mpr ⟨htrue, not_or.mpr ⟨hfalse, hkeyword⟩⟩

/-- What the reader of pieces gives: a lexeme, text to skip, or the fault of the text. -/
def PieceOutcome (cs : List Char) : Except ScanFault (Piece × List Char) → Prop
  | .ok (.lexeme k text, _) => k.SpelledAs text
  | .ok (p, rest) => Skipped p.text rest
  | .error fault => fault.FoundIn cs

theorem PieceRead.outcome {c : Char} {r : List Char} {x : Except ScanFault (Piece × List Char)}
    (h : PieceRead c r x) : PieceOutcome (c :: r) x := by
  cases h with
  | newline => exact .newline
  | blank hc => exact .blank (by simpa [isBlank, or_assoc] using hc)
  | comment =>
    refine .comment (fun hmem => ?_) (by simpa using all_head?_dropWhile (· ≠ '\n') r)
    simpa using List.mem_takeWhile_imp hmem
  | joint => exact .joint
  | number hc hx =>
    obtain ⟨k, text, rest, hread, hspelled⟩ | ⟨literal, hread, hfound⟩ := readNumber_cases hc
    · rw [← hx, hread]
      exact hspelled
    · rw [← hx, hread]
      exact hfound
  | word hc =>
    have hname : Cpp.isName (String.ofList ((c :: r).takeWhile Text.continuesWord)) = true := by
      simp [Cpp.isName, Text.continuesWord_of_startsWord hc, hc]
    have hspelled := spelledAs_wordKind hname
    rw [String.toList_ofList] at hspelled
    exact hspelled
  | string hc hx =>
    rw [← hx, readString]
    cases hq : readQuoted c r with
    | none =>
      refine ⟨c, r, rfl, hc, fun value rest hvalue heq => ?_⟩
      rw [heq, readQuoted_append hvalue] at hq
      cases hq
    | some pair =>
      obtain ⟨value, rest⟩ := pair
      have hvalue := (readQuoted_eq_some_iff.mp hq).2
      rw [← String.toList_ofList (l := value)] at hvalue
      have hspelled := Kind.SpelledAs.str hc hvalue
      rw [String.toList_ofList] at hspelled
      exact hspelled
  | symbol hx =>
    rw [← hx, readSymbol_eq]
    cases Symbol.all.find? (fun s => s.spelling.toList.isPrefixOf (c :: r)) with
    | none => exact rfl
    | some s => exact .fixed rfl

/-- Every piece is a lexeme or skipped, and where there is none the text starts with the fault. -/
theorem pieceOutcome_readPiece (c : Char) (r : List Char) :
    PieceOutcome (c :: r) (readPiece c r) :=
  (pieceRead c r).outcome

/-- Only line breaks and joints hold a newline. -/
theorem newline_notMem_of_readPiece {c : Char} {r rest : List Char} {p : Piece}
    (h : readPiece c r = .ok (p, rest)) (hnewline : p ≠ .newline) (hjoint : p ≠ .joint) :
    '\n' ∉ p.text := by
  have houtcome := pieceOutcome_readPiece c r
  rw [h] at houtcome
  cases p with
  | newline => exact absurd rfl hnewline
  | joint => exact absurd rfl hjoint
  | lexeme k text => exact houtcome.newline_notMem
  | blank b =>
    -- A newline would have been read as such.
    intro hmem
    obtain rfl : b = '\n' := (List.mem_singleton.mp hmem).symm
    have htext := readPiece_text h
    obtain ⟨rfl, rfl⟩ : '\n' = c ∧ rest = r := List.cons.inj htext
    cases h
  | comment body =>
    cases houtcome with
    | blank hc => simp at hc
    | comment hbody => simpa [Piece.text] using hbody

end Braces
