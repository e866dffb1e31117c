import Braces.Proofs.Grouping.Grammar

/-!
# Lexemes of target text

How text is cut into lexemes: at every place the longest one is taken, and blanks only keep others
apart. `Spells` says that some text gives its lexemes whatever comes after it, as long as the next
character does not go on with its last lexeme.
-/

namespace Braces.Cpp

/-- Characters of words. All those beyond ASCII are taken for such. -/
def isWordChar (c : Char) : Bool := c.isAlphanum || c = '_' || 128 ≤ c.toNat

/-- Punctuators, longer ones before shorter ones. Those that start a comment are among them, and no
rule reads them. -/
def punctuators : List String :=
  ["%:%:", "<=>", "->*", "<<=", ">>=", "...",
    "::", "->", "++", "--", "<<", ">>", "<=", ">=", "==", "!=", "&&", "||", "+=", "-=", "*=", "/=",
    "%=", "^=", "&=", "|=", ".*", "##", "<:", ":>", "<%", "%>", "%:", "//", "/*",
    "(", ")", "\x7b", "\x7d", "[", "]", ",", ".", ";", ":", "?", "+", "-", "*", "/", "%", "<", ">",
    "=", "!", "&", "|", "^", "~", "#"]

def Lexeme.ofPunctuator (s : String) : Lexeme :=
  if s = "(" then .openParen
  else if s = ")" then .closeParen
  else if s = "\x7b" then .openBrace
  else if s = "\x7d" then .closeBrace
  else if s = "," then .comma
  else if s = "." then .dot
  else .op s

/-- What goes on with a number, and the rest. A sign does after the mark of an exponent. -/
def numberTail (signed : Bool) : List Char → List Char × List Char
  | [] => ([], [])
  | c :: r =>
    if isWordChar c || c = '.' || (signed && (c = '+' || c = '-')) then
      let (cs, rest) := numberTail (c ∈ ['e', 'E', 'p', 'P']) r
      (c :: cs, rest)
    else ([], c :: r)

/-- The inside of a string literal, and what follows its closing quote. -/
def textTail? : List Char → Option (List Char × List Char)
  | [] => none
  | c :: r =>
    if c = '"' then some ([], r)
    else if c = '\n' then none
    else if c = '\\' then
      match r with
      | [] => none
      | d :: r' =>
        if d = '\n' then none else (textTail? r').map fun (cs, rest) => (c :: d :: cs, rest)
    else (textTail? r).map fun (cs, rest) => (c :: cs, rest)

/-- The first lexeme of a text, if no blank comes first, and what follows it. A character that
starts no lexeme is one by itself, which no rule reads. -/
def lexeme (c : Char) (r : List Char) : Option Lexeme × List Char :=
  if c.isWhitespace then (none, r)
  else if c.isDigit || (c = '.' && r.head?.any Char.isDigit) then
    (some (.number (String.ofList (c :: (numberTail false r).1))), (numberTail false r).2)
  else if isWordChar c then
    (some (.word (String.ofList (c :: r.takeWhile isWordChar))), r.dropWhile isWordChar)
  else
    match if c = '"' then textTail? r else none with
    | some (cs, rest) => (some (.text (String.ofList cs)), rest)
    | none =>
      match punctuators.find? (·.toList.isPrefixOf (c :: r)) with
      | some s => (some (.ofPunctuator s), r.drop (s.toList.length - 1))
      | none => (some (.op (String.singleton c)), r)

theorem numberTail_length (signed : Bool) (cs : List Char) :
    (numberTail signed cs).2.length ≤ cs.length := by
  induction cs generalizing signed with
  | nil => exact Nat.le_refl _
  | cons c r ih =>
    rw [numberTail]
    split
    · exact Nat.le_succ_of_le (ih _)
    · exact Nat.le_refl _

theorem textTail?_length {cs inside rest : List Char} (h : textTail? cs = some (inside, rest)) :
    rest.length ≤ cs.length := by
  fun_induction textTail? cs generalizing inside rest with
  | case1 | case3 | case4 | case5 => cases h
  | case2 r =>
    cases h
    exact Nat.le_succ _
  | case6 d r' _ _ _ ih =>
    obtain ⟨⟨inside', rest'⟩, htail, heq⟩ := Option.map_eq_some_iff.mp h
    cases heq
    exact Nat.le_succ_of_le (Nat.le_succ_of_le (ih htail))
  | case7 c r _ _ _ ih =>
    obtain ⟨⟨inside', rest'⟩, htail, heq⟩ := Option.map_eq_some_iff.mp h
    cases heq
    exact Nat.le_succ_of_le (ih htail)

theorem lexeme_length (c : Char) (r : List Char) : (lexeme c r).2.length ≤ r.length := by
  unfold lexeme
  split
  · exact Nat.le_refl _
  split
  · exact numberTail_length false r
  split
  · exact (List.dropWhile_sublist _).length_le
  split
  · next htail =>
    split at htail
    · exact textTail?_length htail
    · cases htail
  split
  · exact (List.drop_sublist _ _).length_le
  · exact Nat.le_refl _

def lex : List Char → List Lexeme
  | [] => []
  | c :: r => (lexeme c r).1.toList ++ lex (lexeme c r).2
termination_by cs => cs.length
decreasing_by exact Nat.lt_succ_of_le (lexeme_length c r)

theorem lex_cons {c : Char} {r rest : List Char} {t : Lexeme} (h : lexeme c r = (some t, rest)) :
    lex (c :: r) = t :: lex rest := by
  rw [lex, h]
  rfl

theorem lex_blank {c : Char} (h : c.isWhitespace = true) (r : List Char) :
    lex (c :: r) = lex r := by
  have hc : lexeme c r = (none, r) := by rw [lexeme, if_pos h]
  rw [lex, hc]
  rfl

/-! ## Text and its lexemes -/

/-- Some text gives its lexemes whatever follows it, if the next character is fit. -/
def Spells (fit : Char → Bool) (cs : List Char) (ts : List Lexeme) : Prop :=
  ∀ rest, rest.head?.all fit = true → lex (cs ++ rest) = ts ++ lex rest

/-- Whether a word ends before a character. -/
def endsWord (c : Char) : Bool := !isWordChar c

/-- Whether a number ends before a character. -/
def endsNumber (c : Char) : Bool := endsWord c && c ≠ '.' && c ≠ '+' && c ≠ '-'

def anything (_ : Char) : Bool := true

theorem endsWord_of_endsNumber {c : Char} (h : endsNumber c = true) : endsWord c = true := by
  simp only [endsNumber, Bool.and_eq_true] at h
  exact h.1.1.1

section Spells
variable {fit fit' : Char → Bool} {cs ds : List Char} {ts us : List Lexeme}

theorem Spells.append (h : Spells fit cs ts) (h' : Spells fit' ds us)
    (hds : ds.head?.any fit = true) : Spells fit' (cs ++ ds) (ts ++ us) := by
  intro rest hrest
  have hnext : (ds ++ rest).head?.all fit = true := by
    obtain _ | ⟨d, ds⟩ := ds
    · cases hds
    · exact hds
  rw [List.append_assoc, h _ hnext, h' rest hrest, List.append_assoc]

theorem Spells.before (h : Spells anything cs ts) (h' : Spells fit' ds us) :
    Spells fit' (cs ++ ds) (ts ++ us) := by
  intro rest hrest
  have hnext : (ds ++ rest).head?.all anything = true := by
    cases (ds ++ rest).head? <;> rfl
  rw [List.append_assoc, h _ hnext, h' rest hrest, List.append_assoc]

theorem Spells.narrow (h : Spells fit cs ts) (hfit : ∀ c, fit' c = true → fit c = true) :
    Spells fit' cs ts := by
  intro rest hrest
  apply h
  cases rest with
  | nil => rfl
  | cons c r => exact hfit c hrest

theorem Spells.lex_eq (h : Spells fit cs ts) : lex cs = ts := by
  have heq := h [] rfl
  rwa [List.append_nil, lex, List.append_nil] at heq

end Spells

/-! ## Words and numbers -/

/-- Whether characters are a word of their own. -/
def isWord : List Char → Bool
  | [] => false
  | c :: r => !c.isDigit && (c :: r).all isWordChar

theorem not_isWhitespace_of_isWordChar {c : Char} (h : isWordChar c = true) :
    c.isWhitespace = false := by
  rw [← Bool.not_eq_true]
  intro hw
  simp only [Char.isWhitespace, Bool.or_eq_true, decide_eq_true_eq] at hw
  obtain ((rfl | rfl) | rfl) | rfl := hw <;> revert h <;> decide

theorem ne_of_isWordChar {c d : Char} (h : isWordChar c = true) (hd : isWordChar d = false) :
    c ≠ d := by
  rintro rfl
  rw [h] at hd
  cases hd

theorem takeWhile_append_of_all {p : Char → Bool} {cs rest : List Char} (hcs : cs.all p = true)
    (hrest : rest.head?.all (!p ·) = true) :
    (cs ++ rest).takeWhile p = cs ∧ (cs ++ rest).dropWhile p = rest := by
  induction cs with
  | nil => cases rest <;> simp_all
  | cons c cs ih => simp_all

theorem spells_word {cs : List Char} (h : isWord cs = true) :
    Spells endsWord cs [.word (String.ofList cs)] := by
  intro rest hrest
  obtain _ | ⟨c, r⟩ := cs
  · cases h
  simp only [isWord, List.all_cons, Bool.and_eq_true, Bool.not_eq_true'] at h
  obtain ⟨hdigit, hc, hr⟩ := h
  obtain ⟨htake, hdrop⟩ := takeWhile_append_of_all hr hrest
  refine lex_cons ?_
  simp [lexeme, not_isWhitespace_of_isWordChar hc, hdigit, hc, htake, hdrop,
    ne_of_isWordChar hc (show isWordChar '.' = false by decide)]

/-- Whether characters go on with a number up to their end. -/
theorem numberTail_append {signed : Bool} {cs rest : List Char}
    (h : numberTail signed cs = (cs, [])) (hrest : rest.head?.all endsNumber = true) :
    numberTail signed (cs ++ rest) = (cs, rest) := by
  induction cs generalizing signed with
  | nil =>
    obtain _ | ⟨c, r⟩ := rest
    · rfl
    · simp_all [numberTail, endsNumber, endsWord]
  | cons c cs ih =>
    rw [numberTail] at h
    split at h
    · next hc =>
      rw [List.cons_append, numberTail, if_pos hc, ih (by simpa [Prod.ext_iff] using h)]
    · cases h

/-- Whether characters are a number of their own. -/
def isNumber : List Char → Bool
  | [] => false
  | c :: r => c.isDigit && numberTail false r = (r, [])

theorem spells_number {cs : List Char} (h : isNumber cs = true) :
    Spells endsNumber cs [.number (String.ofList cs)] := by
  intro rest hrest
  obtain _ | ⟨c, r⟩ := cs
  · cases h
  simp only [isNumber, Bool.and_eq_true, decide_eq_true_eq] at h
  obtain ⟨hdigit, hr⟩ := h
  have hc : isWordChar c = true := by simp [isWordChar, Char.isAlphanum, hdigit]
  refine lex_cons ?_
  simp [lexeme, not_isWhitespace_of_isWordChar hc, hdigit, numberTail_append hr hrest]

/-! ## String literals -/

theorem textTail?_append {cs inside : List Char} (h : textTail? cs = some (inside, []))
    (rest : List Char) : textTail? (cs ++ rest) = some (inside, rest) := by
  fun_induction textTail? cs generalizing inside with
  | case1 | case3 | case4 | case5 => cases h
  | case2 r =>
    cases h
    unfold textTail?
    exact if_pos rfl
  | case6 d r' hd _ _ ih =>
    obtain ⟨⟨inside', rest'⟩, htail, heq⟩ := Option.map_eq_some_iff.mp h
    cases heq
    unfold textTail?
    simp [hd, ih htail]
  | case7 c r hquote hline hslash ih =>
    obtain ⟨⟨inside', rest'⟩, htail, heq⟩ := Option.map_eq_some_iff.mp h
    cases heq
    unfold textTail?
    simp [hquote, hline, hslash, ih htail]

theorem spells_text {cs inside : List Char} (h : textTail? cs = some (inside, [])) :
    Spells anything ('"' :: cs) [.text (String.ofList inside)] := by
  intro rest _
  refine lex_cons ?_
  simp [lexeme, textTail?_append h, isWordChar]

/-! ## Punctuators -/

/-- Brackets and commas start no longer punctuator. -/
theorem lexeme_mark {c : Char} (hc : c ∈ ['(', ')', '{', '}', ',']) (r : List Char) :
    lexeme c r = (some (.ofPunctuator (String.singleton c)), r) := by
  simp only [List.mem_cons, List.not_mem_nil, or_false] at hc
  obtain rfl | rfl | rfl | rfl | rfl := hc <;> simp [lexeme, punctuators, isWordChar]

theorem spells_openParen : Spells anything ['('] [.openParen] := fun rest _ =>
  lex_cons (lexeme_mark (by decide) rest)

theorem spells_closeParen : Spells anything [')'] [.closeParen] := fun rest _ =>
  lex_cons (lexeme_mark (by decide) rest)

theorem spells_openBrace : Spells anything ['{'] [.openBrace] := fun rest _ =>
  lex_cons (lexeme_mark (by decide) rest)

theorem spells_closeBrace : Spells anything ['}'] [.closeBrace] := fun rest _ =>
  lex_cons (lexeme_mark (by decide) rest)

theorem spells_comma : Spells anything [',', ' '] [.comma] := by
  intro rest _
  have h : lex (',' :: ' ' :: rest) = .comma :: lex (' ' :: rest) :=
    lex_cons (lexeme_mark (by decide) _)
  exact h.trans (congrArg _ (lex_blank rfl rest))

/-- An operator with blanks on both sides. -/
theorem spells_operator (op : BinOp) :
    Spells anything (' ' :: (op.cppSymbol.toList ++ [' '])) [.op op.cppSymbol] := by
  intro rest _
  have hop : lex (op.cppSymbol.toList ++ ' ' :: rest) = .op op.cppSymbol :: lex (' ' :: rest) := by
    cases op <;> simp only [BinOp.cppSymbol, String.reduceToList, List.cons_append, List.nil_append]
      <;> exact lex_cons (by simp [lexeme, punctuators, isWordChar, Lexeme.ofPunctuator])
  calc lex (' ' :: (op.cppSymbol.toList ++ [' ']) ++ rest)
      = lex (op.cppSymbol.toList ++ ' ' :: rest) := by
        rw [List.cons_append, lex_blank rfl, List.append_assoc]; rfl
    _ = .op op.cppSymbol :: lex rest := by rw [hop, lex_blank rfl]

/-- Whether an operand may start with a character. -/
def startsOperand (c : Char) : Bool := isWordChar c || c = '(' || c = '"'

theorem ne_of_startsOperand {c d : Char} (h : startsOperand c = true)
    (hd : startsOperand d = false) : d ≠ c := by
  rintro rfl
  rw [h] at hd
  cases hd

/-- A sign before an operand. -/
theorem lex_sign (op : UnOp) {c : Char} (hc : startsOperand c = true) (rest : List Char) :
    lex (op.cppSymbol.toList ++ c :: rest) = .op op.cppSymbol :: lex (c :: rest) := by
  have hplus : '+' ≠ c := ne_of_startsOperand hc (by decide)
  have hminus : '-' ≠ c := ne_of_startsOperand hc (by decide)
  have hequal : '=' ≠ c := ne_of_startsOperand hc (by decide)
  have hgreater : '>' ≠ c := ne_of_startsOperand hc (by decide)
  cases op <;> simp only [UnOp.cppSymbol, String.reduceToList, List.cons_append, List.nil_append]
    <;> exact lex_cons (by
      simp [lexeme, punctuators, isWordChar, Lexeme.ofPunctuator, List.isPrefixOf, hplus, hminus,
        hequal, hgreater])

/-! ## Heads of conversions and lists -/

theorem spells_less : Spells isWordChar ['<'] [.op "<"] := by
  intro rest hrest
  obtain _ | ⟨c, r⟩ := rest
  · exact lex_cons (by simp [lexeme, punctuators, isWordChar, Lexeme.ofPunctuator])
  have hequal := ne_of_isWordChar hrest (show isWordChar '=' = false by decide)
  have hless := ne_of_isWordChar hrest (show isWordChar '<' = false by decide)
  have hcolon := ne_of_isWordChar hrest (show isWordChar ':' = false by decide)
  have hpercent := ne_of_isWordChar hrest (show isWordChar '%' = false by decide)
  refine lex_cons ?_
  simp [lexeme, punctuators, isWordChar, Lexeme.ofPunctuator, List.isPrefixOf, hequal.symm,
    hless.symm, hcolon.symm, hpercent.symm]

theorem spells_greaterParen : Spells anything ['>', '('] [.op ">", .openParen] := by
  intro rest _
  have h : lex ('>' :: '(' :: rest) = .op ">" :: lex ('(' :: rest) :=
    lex_cons (by simp [lexeme, punctuators, isWordChar, Lexeme.ofPunctuator])
  exact h.trans (congrArg _ (spells_openParen rest (by cases rest <;> rfl)))

theorem spells_greaterBrace : Spells anything ['>', '{'] [.op ">", .openBrace] := by
  intro rest _
  have h : lex ('>' :: '{' :: rest) = .op ">" :: lex ('{' :: rest) :=
    lex_cons (by simp [lexeme, punctuators, isWordChar, Lexeme.ofPunctuator])
  exact h.trans (congrArg _ (spells_openBrace rest (by cases rest <;> rfl)))

/-- A word that is given by its spelling. -/
theorem spells_of_isWord {s : String} (h : isWord s.toList = true) :
    Spells endsWord s.toList [.word s] := by
  have hword := spells_word h
  rwa [String.ofList_toList] at hword

theorem spells_longLong : Spells endsWord "long long".toList [.word "long", .word "long"] := by
  intro rest hrest
  have hword : Spells endsWord "long".toList [.word "long"] := spells_of_isWord (by decide)
  calc lex ("long long".toList ++ rest)
      = lex ("long".toList ++ ' ' :: ("long".toList ++ rest)) := by simp
    _ = .word "long" :: lex ("long".toList ++ rest) := by
        rw [hword _ rfl, lex_blank rfl]; rfl
    _ = .word "long" :: .word "long" :: lex rest := by rw [hword _ hrest]; rfl

theorem spells_castHead {ty : Ty} (hty : ty = .int ∨ ty = .float) :
    Spells anything ("static_cast<" ++ ty.cppName ++ ">(").toList (castHead ty) := by
  have hhead : Spells isWordChar ("static_cast".toList ++ ['<']) [.word "static_cast", .op "<"] :=
    (spells_of_isWord (by decide)).append spells_less (by decide)
  have htext : ("static_cast<" ++ ty.cppName ++ ">(").toList =
      "static_cast".toList ++ ['<'] ++ (ty.cppName.toList ++ ['>', '(']) := by simp
  rw [htext]
  obtain rfl | rfl := hty
  · exact hhead.append (spells_longLong.append spells_greaterParen (by decide)) (by decide)
  · exact hhead.append
      ((spells_of_isWord (by decide)).append spells_greaterParen (by decide)) (by decide)

theorem spells_vectorHead : Spells anything (Ty.list.cppName ++ "\x7b").toList vectorHead := by
  have hhead : Spells isWordChar ("vector".toList ++ ['<']) [.word "vector", .op "<"] :=
    (spells_of_isWord (by decide)).append spells_less (by decide)
  have htext : (Ty.list.cppName ++ "\x7b").toList =
      "vector".toList ++ ['<'] ++ ("long long".toList ++ ['>', '{']) := by simp [Ty.cppName]
  rw [htext]
  exact hhead.append (spells_longLong.append spells_greaterBrace (by decide)) (by decide)

end Braces.Cpp
