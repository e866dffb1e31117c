import Mathlib.Data.List.TakeWhile
import Mathlib.Data.Nat.Digits.Defs
import Braces.Cpp.Print
import Braces.Proofs.Grouping.Lexer
import Braces.Proofs.Spelling
import Braces.Token.Piece

/-!
# Literals and names are single lexemes

The text of a number that is not negative is one number, a string literal whose backslashes all keep
a character is one string, and the spelling of a name is one word that is no keyword.
-/

namespace Braces.Cpp

/-! ## Numbers -/

theorem isWordChar_of_isDigit {c : Char} (h : c.isDigit = true) : isWordChar c = true := by
  simp [isWordChar, Char.isAlphanum, h]

theorem numberTail_append_of_isWordChar {cs ds : List Char}
    (hcs : ∀ c ∈ cs, isWordChar c = true ∨ c = '.')
    (hds : ∀ signed, numberTail signed ds = (ds, [])) (signed : Bool) :
    numberTail signed (cs ++ ds) = (cs ++ ds, []) := by
  induction cs generalizing signed with
  | nil => exact hds signed
  | cons c cs ih =>
    have hc : isWordChar c || c = '.' := by
      simpa using hcs c List.mem_cons_self
    rw [List.cons_append, numberTail, if_pos (by simp [hc]),
      ih fun d hd => hcs d (List.mem_cons_of_mem c hd)]

theorem numberTail_of_isWordChar {cs : List Char} (hcs : ∀ c ∈ cs, isWordChar c = true ∨ c = '.')
    (signed : Bool) : numberTail signed cs = (cs, []) := by
  have h : numberTail signed (cs ++ []) = (cs ++ [], []) :=
    numberTail_append_of_isWordChar hcs (fun _ => rfl) signed
  rwa [List.append_nil] at h

theorem isNumber_append {digits tail : List Char} (hne : digits ≠ [])
    (hdigits : ∀ c ∈ digits, c.isDigit = true)
    (htail : ∀ signed, numberTail signed tail = (tail, [])) : isNumber (digits ++ tail) = true := by
  obtain _ | ⟨c, cs⟩ := digits
  · exact absurd rfl hne
  have hcs : ∀ d ∈ cs, isWordChar d = true ∨ d = '.' := fun d hd =>
    .inl (isWordChar_of_isDigit (hdigits d (List.mem_cons_of_mem c hd)))
  simp [isNumber, hdigits c List.mem_cons_self, numberTail_append_of_isWordChar hcs htail]

theorem isDigit_of_mem_toDigits {n : Nat} {c : Char} (h : c ∈ Nat.toDigits 10 n) :
    c.isDigit = true :=
  Nat.isDigit_of_mem_toDigits (by decide) (by decide) h

theorem toList_toString_of_nonneg {n : Int} (h : 0 ≤ n) :
    (toString n).toList = Nat.toDigits 10 n.toNat := by
  rw [Int.toString_eq_repr, Int.repr_eq_if, if_pos h, Nat.repr_eq_ofList_toDigits,
    String.toList_ofList]

theorem isNumber_intLiteral {n : Int} (h : 0 ≤ n) : isNumber (intLiteral n).toList = true := by
  have hmark : ∀ signed, numberTail signed "LL".toList = ("LL".toList, []) :=
    numberTail_of_isWordChar (by simp [isWordChar])
  have hdigits : ∀ c ∈ Nat.toDigits 10 n.toNat, c.isDigit = true := fun _ => isDigit_of_mem_toDigits
  unfold intLiteral
  split
  · rw [toList_toString_of_nonneg h, ← List.append_nil (Nat.toDigits 10 n.toNat)]
    exact isNumber_append Nat.toDigits_ne_nil hdigits fun _ => rfl
  · rw [String.toList_append, toList_toString_of_nonneg h]
    exact isNumber_append Nat.toDigits_ne_nil hdigits hmark

/-! ## Floating-point numbers -/

section Double
open Double

theorem isDigit_of_mem_zeros {n : Nat} {c : Char} (h : c ∈ zeros n) : c.isDigit = true := by
  rw [List.eq_of_mem_replicate h]
  rfl

theorem isNumber_positional {digits : List Char} (hdigits : ∀ c ∈ digits, c.isDigit = true)
    (point : Int) : isNumber (positional digits point) = true := by
  have hfraction : ∀ c ∈ zeros (-point).toNat ++ digits.drop point.toNat, c.isDigit = true := by
    intro c hc
    obtain hc | hc := List.mem_append.mp hc
    · exact isDigit_of_mem_zeros hc
    · exact hdigits c (List.mem_of_mem_drop hc)
  have hwhole : ∀ c ∈ digits.take point.toNat ++ zeros (point.toNat - digits.length),
      c.isDigit = true := by
    intro c hc
    obtain hc | hc := List.mem_append.mp hc
    · exact hdigits c (List.mem_of_mem_take hc)
    · exact isDigit_of_mem_zeros hc
  unfold positional
  refine isNumber_append ?_ ?_ (numberTail_of_isWordChar fun c hc => ?_)
  · split <;> simp_all
  · split
    · simp
    · exact hwhole
  · obtain rfl | hc := List.mem_cons.mp hc
    · exact .inr rfl
    · left
      apply isWordChar_of_isDigit
      split at hc
      · simp_all
      · exact hfraction c hc

theorem numberTail_toString (n : Int) :
    numberTail true (toString n).toList = ((toString n).toList, []) := by
  have hdigits : ∀ k : Nat, ∀ c ∈ Nat.toDigits 10 k, isWordChar c = true ∨ c = '.' := fun k c hc =>
    .inl (isWordChar_of_isDigit (isDigit_of_mem_toDigits hc))
  rw [Int.toString_eq_repr, Int.repr_eq_if]
  split
  · rw [Nat.repr_eq_ofList_toDigits, String.toList_ofList]
    exact numberTail_of_isWordChar (hdigits _) true
  · rw [Nat.repr_eq_ofList_toDigits, String.toList_append, String.toList_ofList]
    simp [numberTail, numberTail_of_isWordChar (hdigits _)]

theorem isNumber_scientific {digits : List Char} (hne : digits ≠ [])
    (hdigits : ∀ c ∈ digits, c.isDigit = true) (point : Int) :
    isNumber (scientific digits point) = true := by
  obtain _ | ⟨d, ds⟩ := digits
  · exact absurd rfl hne
  have hexponent : ∀ signed, numberTail signed ('e' :: (toString (point - 1)).toList) =
      ('e' :: (toString (point - 1)).toList, []) := fun signed => by
    have hmark : decide ('e' ∈ ['e', 'E', 'p', 'P']) = true := rfl
    rw [numberTail, if_pos (by simp [isWordChar]), hmark, numberTail_toString]
  have hfraction : ∀ c ∈ (if ds.isEmpty then [] else '.' :: ds), isWordChar c = true ∨ c = '.' := by
    intro c hc
    split at hc
    · cases hc
    · obtain rfl | hc := List.mem_cons.mp hc
      · exact .inr rfl
      · exact .inl (isWordChar_of_isDigit (hdigits c (List.mem_cons_of_mem d hc)))
  have h := isNumber_append (List.cons_ne_nil d []) (by simpa using hdigits d List.mem_cons_self)
    (numberTail_append_of_isWordChar hfraction hexponent)
  rw [← List.append_assoc] at h
  exact h

theorem power_fst_pos {base : Nat} (h : 0 < base) (e : Int) : 0 < (power base e).1 :=
  Nat.pow_pos h

theorem power_snd_pos {base : Nat} (h : 0 < base) (e : Int) : 0 < (power base e).2 :=
  Nat.pow_pos h

/-- What rounds to a positive number is positive. -/
theorem neighbour?_pos {m d : Nat} {e unit : Int} (hm : 0 < m) (h : neighbour? m e unit = some d) :
    0 < d := by
  have hscale : 0 < (power 2 e).1 * (power 10 unit).2 :=
    Nat.mul_pos (power_fst_pos (by decide) e) (power_snd_pos (by decide) unit)
  have hlow : 0 < if m = fullMantissa ∧ leastExponent < e then 4 * m - 1 else 4 * m - 2 := by
    split <;> omega
  have hlowest := Nat.mul_pos hlow hscale
  unfold neighbour? at h
  dsimp only at h
  generalize (if m = fullMantissa ∧ leastExponent < e then 4 * m - 1 else 4 * m - 2) *
    ((power 2 e).1 * (power 10 unit).2) = lowest at h hlowest
  generalize 4 * m * ((power 2 e).1 * (power 10 unit).2) /
    (4 * ((power 2 e).2 * (power 10 unit).1)) = q at h
  -- A quotient of zero lies below the interval.
  have hq : ∀ {step : Nat}, lowest + m % 2 ≤ q * step → 0 < q := by
    intro step hle
    by_contra hq
    rw [Nat.eq_zero_of_not_pos hq, Nat.zero_mul] at hle
    omega
  split at h
  · next hboth =>
    have := hq hboth.1
    cases h
    split <;> omega
  split at h
  · next hdown =>
    cases h
    exact hq hdown
  split at h
  · cases h
    exact Nat.succ_pos q
  · cases h

theorem shortest_pos {m : Nat} (hm : 0 < m) (e : Int) : 0 < (shortest m e).1 := by
  unfold shortest
  dsimp only
  generalize decimalExponent (m * (power 2 e).1) (power 2 e).2 = top
  cases hfind : (List.range 17).findSome? fun count : Nat =>
      (neighbour? m e (top - count)).map (·, top - (count : Int)) with
  | none => exact Nat.mul_pos hm (power_fst_pos (by decide) e)
  | some r =>
    obtain ⟨count, _, hcount⟩ := List.exists_of_findSome?_eq_some hfind
    obtain ⟨d, hd, rfl⟩ := Option.map_eq_some_iff.mp hcount
    exact neighbour?_pos hm hd

theorem ofDigitChars_of_zeros {cs : List Char} (h : ∀ c ∈ cs, c = '0') :
    Nat.ofDigitChars 10 cs 0 = 0 := by
  induction cs with
  | nil => rfl
  | cons c cs ih =>
    rw [h c List.mem_cons_self]
    exact ih fun d hd => h d (List.mem_cons_of_mem c hd)

/-- A positive number has a digit that is not zero. -/
theorem significant_ne_nil {d : Nat} (hd : 0 < d) :
    ((Nat.toDigits 10 d).reverse.dropWhile (· = '0')).reverse ≠ [] := by
  intro h
  rw [List.reverse_eq_nil_iff, List.dropWhile_eq_nil_iff] at h
  have hzero := ofDigitChars_of_zeros fun c hc => by simpa using h c (List.mem_reverse.mpr hc)
  rw [Nat.ofDigitChars_ten_toDigits] at hzero
  omega

theorem isNumber_magnitudeText (m : Nat) (e : Int) : isNumber (magnitudeText m e) = true := by
  unfold magnitudeText
  split
  · decide
  · next hm =>
    have hpos := shortest_pos (Nat.pos_of_ne_zero hm) e
    have hdigits : ∀ c ∈ ((Nat.toDigits 10 (shortest m e).1).reverse.dropWhile (· = '0')).reverse,
        c.isDigit = true := by
      intro c hc
      have hc := (List.dropWhile_sublist _).subset (List.mem_reverse.mp hc)
      exact isDigit_of_mem_toDigits (List.mem_reverse.mp hc)
    dsimp only
    split
    · exact isNumber_positional hdigits _
    · exact isNumber_scientific (significant_ne_nil hpos) hdigits _

theorem isNumber_text (m : Nat) (e : Int) :
    isNumber (Double.finite false m e).text.toList = true := by
  have htext : (Double.finite false m e).text = String.ofList (magnitudeText m e) := by
    simp [text]
  rw [htext, String.toList_ofList]
  exact isNumber_magnitudeText m e

end Double

/-! ## String literals -/

/-- Whether text can stand between quotes: it has no newline, and each backslash keeps a
character. -/
def isClosed : List Char → Bool
  | [] => true
  | c :: r =>
    if c = '\n' then false
    else if c = '\\' then
      match r with
      | [] => false
      | d :: r' => d ≠ '\n' && isClosed r'
    else isClosed r

theorem textTail?_escapeText {cs : List Char} (h : isClosed cs = true) :
    textTail? (escapeText cs ++ ['"']) = some (escapeText cs, []) := by
  fun_induction isClosed cs with
  | case1 => decide
  | case2 | case3 => cases h
  | case4 d r _ ih =>
    simp only [Bool.and_eq_true, decide_eq_true_eq] at h
    unfold escapeText textTail?
    simp [h.1, ih h.2]
  | case5 c r hline hslash ih =>
    have hescape : escapeText (c :: r) =
        if c = '"' then '\\' :: '"' :: escapeText r else c :: escapeText r := by
      simp [escapeText, hslash]
    rw [hescape]
    split
    · unfold textTail?
      simp [ih h]
    · next hquote =>
      unfold textTail?
      simp [hquote, hline, hslash, ih h]

/-! ## Names -/

/-- Whether a name starts and goes on as identifiers do. -/
def isName (name : String) : Bool :=
  match name.toList with
  | [] => false
  | c :: r => Text.startsWord c && r.all Text.continuesWord

/-- In ASCII, what goes on with a name is of a word, and digits go on with a name but start none. -/
theorem wordChars_of_ascii {c : Char} (hc : c.toNat < 128) :
    (Text.continuesWord c = true → isWordChar c = true) ∧
      (c.isDigit = true → Text.continuesWord c = true) ∧
      (Text.startsWord c = true → ¬ c.isDigit = true) := by
  obtain ⟨n, rfl⟩ : ∃ n : Fin 128, Char.ofNat n = c := ⟨⟨c.toNat, hc⟩, Char.ofNat_toNat c⟩
  clear hc
  revert n
  decide +kernel

theorem isWordChar_of_continuesWord {c : Char} (h : Text.continuesWord c = true) :
    isWordChar c = true := by
  by_cases hc : c.toNat < 128
  · exact (wordChars_of_ascii hc).1 h
  · simp [isWordChar, Nat.le_of_not_lt hc]

theorem toNat_lt_of_isDigit {c : Char} (h : c.isDigit = true) : c.toNat < 128 := by
  simp only [Char.isDigit, Bool.and_eq_true, decide_eq_true_eq] at h
  exact Nat.lt_of_le_of_lt h.2 (by decide)

theorem continuesWord_of_isDigit {c : Char} (h : c.isDigit = true) : Text.continuesWord c = true :=
  (wordChars_of_ascii (toNat_lt_of_isDigit h)).2.1 h

theorem not_isDigit_of_startsWord {c : Char} (h : Text.startsWord c = true) :
    c.isDigit = false := by
  rw [← Bool.not_eq_true]
  intro hdigit
  exact (wordChars_of_ascii (toNat_lt_of_isDigit hdigit)).2.2 h hdigit

theorem isWord_of_isName {name : String} (h : isName name = true) : isWord name.toList = true := by
  unfold isName at h
  split at h
  · cases h
  · next c r heq =>
    simp only [Bool.and_eq_true, List.all_eq_true] at h
    have hc := isWordChar_of_continuesWord (Text.continuesWord_of_startsWord h.1)
    have hr : ∀ d ∈ r, isWordChar d = true := fun d hd => isWordChar_of_continuesWord (h.2 d hd)
    simpa [heq, isWord, not_isDigit_of_startsWord h.1, hc] using hr

theorem isWord_append_underscore {cs : List Char} (h : isWord cs = true) :
    isWord (cs ++ ['_']) = true := by
  obtain _ | ⟨c, r⟩ := cs
  · cases h
  · simp_all [isWord, isWordChar]

theorem isWord_spell {name : String} (h : isName name = true) :
    isWord (spell name).toList = true := by
  unfold spell
  split
  · rw [String.toList_append]
    exact isWord_append_underscore (isWord_of_isName h)
  · exact isWord_of_isName h

/-- No reserved name ends in an underscore, so each of them is its own stem. -/
theorem stem_of_mem_reserved : ∀ w ∈ reserved, stem w = w := by decide +kernel

theorem spell_not_mem_reserved (name : String) : spell name ∉ reserved := by
  intro hmem
  have hstem := stem_of_mem_reserved _ hmem
  by_cases h : stem name ∈ reserved
  · rw [spell, if_pos h, stem_append_underscore] at hstem
    have hlen : (stem name).toList.length ≤ name.toList.length := by
      rw [stem, String.toList_ofList, List.length_reverse]
      exact Nat.le_trans (List.dropWhile_sublist _).length_le (by simp)
    rw [hstem, String.toList_append, List.length_append] at hlen
    simp at hlen
  · rw [spell, if_neg h] at hstem hmem
    rw [hstem] at h
    exact h hmem

theorem isOperand_spell (name : String) : (Lexeme.word (spell name)).isOperand = true := by
  have h := spell_not_mem_reserved name
  have hkeyword : spell name ∉ keywords := fun hmem => h (List.mem_append_left _ hmem)
  have hvector : spell name ≠ "vector" := by
    intro heq
    rw [heq] at h
    exact h (by decide +kernel)
  simp [Lexeme.isOperand, hkeyword, hvector]

end Braces.Cpp
