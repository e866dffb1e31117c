import Braces.Proofs.Printing.Text

/-!
# Reading pieces back

A piece that is spelled properly is read back off a text, if the character after it does not go on
with it. A word or a number goes on with no blank, bracket, comma or colon, and a symbol only with
the signs that longer symbols are made of.
-/

namespace Braces

/-! ## Strings -/

/-- A string is what stands before its closing quote, as long as it can stand there. -/
theorem readQuoted_append {quote : Char} {value : List Char} (h : isQuotable quote value = true)
    (rest : List Char) : readQuoted quote (value ++ quote :: rest) = some (value, rest) := by
  fun_induction isQuotable quote value with
  | case1 =>
    unfold readQuoted
    simp
  | case2 | case3 => cases h
  | case4 d r hc ih =>
    unfold readQuoted
    simp_all
  | case5 c r hc hslash ih =>
    unfold readQuoted
    simp_all

/-- The strings that can be read are those that can stand between quotes. -/
theorem readQuoted_eq_some_iff {quote : Char} {cs value rest : List Char} :
    readQuoted quote cs = some (value, rest) ↔
      cs = value ++ quote :: rest ∧ isQuotable quote value = true := by
  constructor
  · intro h
    refine ⟨(readQuoted_text h).symm, ?_⟩
    fun_induction readQuoted quote cs generalizing value rest with
    | case1 | case3 | case4 | case5 => cases h
    | case2 r =>
      cases h
      rfl
    | case6 d r _ _ hd ih =>
      obtain ⟨⟨value', rest'⟩, hr, heq⟩ := Option.map_eq_some_iff.mp h
      cases heq
      unfold isQuotable
      simp_all
    | case7 c r hquote hline hslash ih =>
      obtain ⟨⟨value', rest'⟩, hr, heq⟩ := Option.map_eq_some_iff.mp h
      cases heq
      unfold isQuotable
      simp_all
  · rintro ⟨rfl, h⟩
    exact readQuoted_append h rest

/-! ## Symbols -/

namespace Symbol

/-- Whether a longer symbol starts like this one. -/
def isExtended : Symbol → Bool
  | plus | minus | star | slash | doubleSlash | percent | equal | lessThan | greaterThan => true
  | _ => false

/-- What makes a symbol longer starts with one of two signs. -/
theorem extension : ∀ s ∈ all, ∀ a ∈ all, s.spelling.toList.isPrefixOf a.spelling.toList = true →
    a = s ∨ s.isExtended = true ∧
      (a.spelling.toList.drop s.spelling.toList.length).head?.any (fun c => c = '=' || c = '/') =
        true := by
  decide

/-- Longer symbols come first. -/
theorem pairwise_all : all.Pairwise fun a s =>
    s.spelling.toList.length ≤ a.spelling.toList.length ∧ a ≠ s := by
  decide

/-- Of the symbols that a text starts with, the first in the list is the one it is made of. -/
theorem find?_all (s : Symbol) {rest : List Char}
    (h : s.isExtended = true → rest.head?.all (fun c => c ≠ '=' && c ≠ '/') = true) :
    all.find? (fun a => a.spelling.toList.isPrefixOf (s.spelling.toList ++ rest)) = some s := by
  obtain ⟨before, after, hall⟩ := List.append_of_mem s.mem_all
  refine List.find?_eq_some_iff_append.mpr ⟨?_, before, after, hall, fun a ha => ?_⟩
  · simp
  have hpairwise := pairwise_all
  rw [hall] at hpairwise
  obtain ⟨hle, hne⟩ := (List.pairwise_append.mp hpairwise).2.2 a ha s List.mem_cons_self
  rw [Bool.not_eq_true', ← Bool.not_eq_true]
  intro hprefix
  have hs : s.spelling.toList <+: a.spelling.toList :=
    List.prefix_of_prefix_length_le (List.prefix_append _ _)
      (List.isPrefixOf_iff_prefix.mp hprefix) hle
  obtain rfl | ⟨hextended, hnext⟩ :=
    extension s s.mem_all a a.mem_all (List.isPrefixOf_iff_prefix.mpr hs)
  · exact hne rfl
  · obtain ⟨more, hmore⟩ := hs
    rw [← hmore, List.drop_left] at hnext
    rw [← hmore, List.isPrefixOf_iff_prefix, List.prefix_append_right_inj] at hprefix
    obtain ⟨tail, rfl⟩ := hprefix
    have hrest := h hextended
    cases more with
    | nil => cases hnext
    | cons c more => simp_all

end Symbol

/-! ## Pieces -/

theorem ne_of_apply {p : Char → Bool} {c d : Char} (h : p c = true) (hd : p d = false) : c ≠ d := by
  rintro rfl
  rw [h] at hd
  cases hd

/-- What holds of some characters holds of the first one of a text that starts with one of them. -/
theorem all_head?_of_mem {p : Char → Bool} {cs rest : List Char} (hp : cs.all p = true)
    (h : rest.head?.all (· ∈ cs) = true) : rest.head?.all p = true := by
  cases rest with
  | nil => rfl
  | cons c rest =>
    simp only [List.head?_cons, Option.all_some, decide_eq_true_eq] at h ⊢
    exact List.all_eq_true.mp hp c h

/-- Neither layout nor a comment starts with this character. -/
def isPlain (c : Char) : Bool := c ∉ ['\n', ' ', '\t', '\r', '\x0c', '#', '\\']

theorem isPlain_of_apply {p : Char → Bool} {c : Char}
    (hp : ['\n', ' ', '\t', '\r', '\x0c', '#', '\\'].all (!p ·) = true) (h : p c = true) :
    isPlain c = true := by
  refine decide_eq_true fun hc => ?_
  have hpc := List.all_eq_true.mp hp c hc
  rw [h] at hpc
  cases hpc

theorem readPiece_of_isPlain {c : Char} (h : isPlain c = true) (r : List Char) :
    readPiece c r =
      if startsNumber c r then readNumber (c :: r)
      else if Text.startsWord c then .ok (readWord (c :: r))
      else if c = '"' || c = '\'' then readString c r
      else readSymbol c r := by
  simp only [isPlain, List.mem_cons, List.not_mem_nil, or_false, not_or, decide_eq_true_eq] at h
  simp [readPiece, isBlank, h]

/-- No other piece starts like a symbol. -/
theorem Symbol.head_spelling (s : Symbol) : ∃ c r, s.spelling.toList = c :: r ∧
    (isPlain c && !c.isDigit && c ≠ '.' && !Text.startsWord c && c ≠ '"' && c ≠ '\'') = true := by
  have hall : all.all (fun s => s.spelling.toList.head?.any fun c => isPlain c && !c.isDigit &&
      c ≠ '.' && !Text.startsWord c && c ≠ '"' && c ≠ '\'') = true := by
    rfl
  have hs := List.all_eq_true.mp hall s s.mem_all
  cases heq : s.spelling.toList with
  | nil => exact absurd heq s.spelling_ne_nil
  | cons c r =>
    rw [heq] at hs
    exact ⟨c, r, rfl, hs⟩

theorem readPiece_symbol (s : Symbol) {rest : List Char}
    (h : s.isExtended = true → rest.head?.all (fun c => c ≠ '=' && c ≠ '/') = true) :
    ∃ c r, s.spelling.toList ++ rest = c :: r ∧ readPiece c r = .ok (.symbol s, rest) := by
  obtain ⟨c, r, heq, hc⟩ := s.head_spelling
  simp only [Bool.and_eq_true, Bool.not_eq_true', decide_eq_true_eq] at hc
  obtain ⟨⟨⟨⟨⟨hplain, hdigit⟩, hpoint⟩, hword⟩, hdouble⟩, hsingle⟩ := hc
  have hsymbol : readSymbol c (r ++ rest) = .ok (.symbol s, rest) := by
    have hfind := s.find?_all h
    rw [heq, List.cons_append] at hfind
    rw [readSymbol_eq, hfind]
    simp [Piece.symbol, heq]
  refine ⟨c, r ++ rest, by rw [heq, List.cons_append], ?_⟩
  rw [readPiece_of_isPlain hplain]
  simp [startsNumber, hdigit, hpoint, hword, hdouble, hsingle, hsymbol]

theorem isPlain_of_startsWord {c : Char} (h : Text.startsWord c = true) : isPlain c = true :=
  isPlain_of_apply rfl h

theorem isPlain_of_isDigit {c : Char} (h : c.isDigit = true) : isPlain c = true :=
  isPlain_of_apply (by decide) h

/-- A word is read up to a character that does not go on with it. -/
theorem readPiece_word {c : Char} {r rest : List Char} (hc : Text.startsWord c = true)
    (hr : r.all Text.continuesWord = true) (hrest : rest.head?.all (!Text.continuesWord ·) = true) :
    readPiece c (r ++ rest) =
      .ok (.lexeme (wordKind (String.ofList (c :: r))) (c :: r), rest) := by
  have hword : (c :: r).all Text.continuesWord = true := by
    rw [List.all_cons, hr, Text.continuesWord_of_startsWord hc, Bool.and_true]
  obtain ⟨htake, hdrop⟩ := Cpp.takeWhile_append_of_all hword hrest
  have hpoint : c ≠ '.' := ne_of_apply hc rfl
  have hnumber : startsNumber c (r ++ rest) = false := by
    simp [startsNumber, Cpp.not_isDigit_of_startsWord hc, hpoint]
  rw [List.cons_append] at htake hdrop
  simp [readPiece_of_isPlain (isPlain_of_startsWord hc), hnumber, hc, readWord, htake, hdrop]

theorem digitsValue_toDigits (n : Nat) : Double.digitsValue (Nat.toDigits 10 n) = n :=
  Nat.ofDigitChars_ten_toDigits

/-- Digits are read up to a character that is neither a digit nor a point. Their value has to
fit. -/
theorem readNumber_digits {digits rest : List Char} (hdigits : digits.all Char.isDigit = true)
    (hrest : rest.head?.all (fun c => !c.isDigit && c ≠ '.') = true) :
    readNumber (digits ++ rest) =
      if Double.digitsValue digits ≤ maxInteger then
        .ok (.lexeme (.int (Double.digitsValue digits)) digits, rest)
      else .error (.invalidNumber (String.ofList digits)) := by
  cases rest with
  | nil =>
    obtain ⟨htake, hdrop⟩ := @Cpp.takeWhile_append_of_all _ _ [] hdigits rfl
    rw [readNumber, htake, hdrop]
  | cons d rest =>
    simp only [List.head?_cons, Option.all_some, Bool.and_eq_true, decide_eq_true_eq] at hrest
    obtain ⟨htake, hdrop⟩ := @Cpp.takeWhile_append_of_all _ _ (d :: rest) hdigits hrest.1
    simp [readNumber, htake, hdrop, hrest.2]

theorem readPiece_digits {digits : List Char} (hne : digits ≠ [])
    (hdigits : digits.all Char.isDigit = true) (rest : List Char) :
    ∃ c r, digits ++ rest = c :: r ∧ readPiece c r = readNumber (digits ++ rest) := by
  cases digits with
  | nil => exact absurd rfl hne
  | cons c ds =>
    rw [List.all_cons, Bool.and_eq_true] at hdigits
    refine ⟨c, ds ++ rest, rfl, ?_⟩
    simp [readPiece_of_isPlain (isPlain_of_isDigit hdigits.1), startsNumber, hdigits.1]

/-- A number is read up to a character that is neither a digit nor a point. -/
theorem readPiece_number {n : Nat} {rest : List Char} (hn : n ≤ maxInteger)
    (hrest : rest.head?.all (fun c => !c.isDigit && c ≠ '.') = true) :
    ∃ c r, Nat.toDigits 10 n ++ rest = c :: r ∧
      readPiece c r = .ok (.lexeme (.int n) (Nat.toDigits 10 n), rest) := by
  have hdigits : (Nat.toDigits 10 n).all Char.isDigit = true :=
    List.all_eq_true.mpr fun c hc => Cpp.isDigit_of_mem_toDigits hc
  obtain ⟨c, r, heq, hread⟩ := readPiece_digits Nat.toDigits_ne_nil hdigits rest
  rw [readNumber_digits hdigits hrest, digitsValue_toDigits, if_pos hn] at hread
  exact ⟨c, r, heq, hread⟩

/-- A name is read up to a character that does not go on with it. -/
theorem readPiece_name {word : String} {rest : List Char} (hname : Cpp.isName word = true)
    (hrest : rest.head?.all (!Text.continuesWord ·) = true) :
    ∃ c r, word.toList ++ rest = c :: r ∧
      readPiece c r = .ok (.lexeme (wordKind word) word.toList, rest) := by
  unfold Cpp.isName at hname
  split at hname
  · cases hname
  · next c r heq =>
    simp only [Bool.and_eq_true] at hname
    refine ⟨c, r ++ rest, by rw [heq, List.cons_append], ?_⟩
    rw [readPiece_word hname.1 hname.2 hrest, ← heq, String.ofList_toList]

theorem readPiece_string {quote : Char} {s : String} (hquote : quote = '"' ∨ quote = '\'')
    (hs : isQuotable quote s.toList = true) (rest : List Char) :
    readPiece quote (s.toList ++ quote :: rest) =
      .ok (.lexeme (.str s) (quote :: s.toList ++ [quote]), rest) := by
  have hplain : isPlain quote = true ∧ Text.startsWord quote = false := by
    obtain rfl | rfl := hquote <;> exact ⟨rfl, rfl⟩
  have hnumber : startsNumber quote (s.toList ++ quote :: rest) = false := by
    obtain rfl | rfl := hquote <;> rfl
  rw [readPiece_of_isPlain hplain.1, hnumber, hplain.2]
  simp [hquote, readString, readQuoted_eq_some_iff.mpr ⟨rfl, hs⟩]

/-! ## Pieces that are spelled properly -/

namespace Piece

/-- Characters before which words and numbers end. -/
def separates (c : Char) : Bool := c ∈ [' ', '\n', '(', ')', '[', ']', ',', ':']

/-- Whether a piece ends before a character. -/
def endsBefore (c : Char) : Piece → Bool
  | .lexeme (.symbol s) _ => !s.isExtended || (c ≠ '=' && c ≠ '/')
  | .lexeme (.str _) _ | .blank _ => true
  | _ => separates c

inductive Proper : Piece → Prop
  | space : Proper .space
  | keyword (k : Keyword) : Proper (.keyword k)
  | symbol (s : Symbol) : Proper (.symbol s)
  | name {n : String} : isIdentifier n = true → Proper (.name n)
  | bool (b : Bool) : Proper (.lexeme (.bool b) (if b then "True" else "False").toList)
  | int {n : Int} : 0 ≤ n → n ≤ maxInteger → Proper (.lexeme (.int n) (Nat.toDigits 10 n.toNat))
  | str {quote : Char} {s : String} : quote = '"' ∨ quote = '\'' →
      isQuotable quote s.toList = true →
      Proper (.lexeme (.str s) (quote :: s.toList ++ [quote]))

theorem all_of_separates {p : Char → Bool} {rest : List Char}
    (hp : [' ', '\n', '(', ')', '[', ']', ',', ':'].all p = true)
    (h : rest.head?.all separates = true) : rest.head?.all p = true :=
  all_head?_of_mem hp h

theorem reads_word {word : String} {k : Kind} {rest : List Char} (hname : Cpp.isName word = true)
    (hkind : wordKind word = k) (hrest : rest.head?.all separates = true) :
    ∃ c r, word.toList ++ rest = c :: r ∧ readPiece c r = .ok (.lexeme k word.toList, rest) :=
  hkind ▸ readPiece_name hname (all_of_separates (p := (!Text.continuesWord ·)) rfl hrest)

theorem wordKind_of_isIdentifier {n : String} (h : isIdentifier n = true) :
    wordKind n = .ident n := by
  simp only [isIdentifier, reservedWords, Bool.and_eq_true, decide_eq_true_eq, List.mem_cons,
    List.mem_map, not_or, not_exists, not_and] at h
  obtain ⟨-, htrue, hfalse, hkeyword⟩ := h
  have hnone : Keyword.all.find? (·.spelling = n) = none := by
    refine List.find?_eq_none.mpr fun k hk => ?_
    simpa using hkeyword k hk
  simp [wordKind, lookup_words, htrue, hfalse, hnone]

theorem wordKind_spelling (k : Keyword) : wordKind k.spelling = .keyword k := by
  cases k <;> decide

theorem isName_spelling (k : Keyword) : Cpp.isName k.spelling = true :=
  List.all_eq_true.mp (rfl : Keyword.all.all (Cpp.isName ·.spelling) = true) k k.mem_all

/-- A proper piece is read off a text, whatever follows it, if it ends there. -/
theorem Proper.reads {p : Piece} (h : p.Proper) {rest : List Char}
    (hrest : rest.head?.all (p.endsBefore ·) = true) :
    ∃ c r, p.text ++ rest = c :: r ∧ readPiece c r = .ok (p, rest) := by
  cases h with
  | space => exact ⟨' ', rest, rfl, rfl⟩
  | keyword k => exact reads_word (isName_spelling k) (wordKind_spelling k) hrest
  | symbol s =>
    refine readPiece_symbol s fun hextended => ?_
    simpa [Piece.symbol, endsBefore, hextended] using hrest
  | name hn =>
    exact reads_word (Bool.and_eq_true_iff.mp hn).1 (wordKind_of_isIdentifier hn) hrest
  | bool b =>
    cases b with
    | true => exact reads_word rfl rfl hrest
    | false => exact reads_word rfl rfl hrest
  | @int n hnonneg hmax =>
    have hstop := all_of_separates (p := fun c => !c.isDigit && c ≠ '.') (by decide) hrest
    have hnat : ((n.toNat : Nat) : Int) = n := Int.toNat_of_nonneg hnonneg
    obtain ⟨c, r, heq, hread⟩ := readPiece_number (n := n.toNat) (by omega) hstop
    rw [hnat] at hread
    exact ⟨c, r, heq, hread⟩
  | @str quote s hquote hs =>
    exact ⟨quote, s.toList ++ quote :: rest, by simp [text], readPiece_string hquote hs rest⟩

/-- Pieces that follow one another, each ending before the next, up to what follows them all. -/
def Readable : List Piece → List Char → Prop
  | [], _ => True
  | p :: ps, rest =>
    p.Proper ∧ (texts ps ++ rest).head?.all (p.endsBefore ·) = true ∧ Readable ps rest

theorem readable_append {ps qs : List Piece} {rest : List Char} :
    Readable (ps ++ qs) rest ↔ Readable ps (texts qs ++ rest) ∧ Readable qs rest := by
  induction ps with
  | nil => exact ⟨fun h => ⟨trivial, h⟩, fun h => h.2⟩
  | cons p ps ih =>
    rw [List.cons_append, Readable, Readable, ih, texts_append, List.append_assoc]
    exact ⟨fun ⟨hp, hends, hps, hqs⟩ => ⟨⟨hp, hends, hps⟩, hqs⟩,
      fun ⟨⟨hp, hends, hps⟩, hqs⟩ => ⟨hp, hends, hps, hqs⟩⟩

end Piece

end Braces
