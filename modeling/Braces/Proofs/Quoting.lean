import Braces.Proofs.Lines.Texts
import Braces.Proofs.Reading.Tokens
import Braces.Proofs.Respelling

/-!
# String literals survive

The value of a string token is the text between its quotes, where every backslash keeps the
character after it. A literal of the target stands between double quotes, so the bare ones within it
take a backslash. Scanner and printer go through the text in the same pairs and single characters:
the literal is read back as one string, and quoting that string once more changes nothing.
-/

namespace Braces

/-- The second text is the first with a backslash before every bare double quote. A backslash with
the character that it keeps, and every other character, is as it was. -/
inductive Requoted : List Char → List Char → Prop
  | nil : Requoted [] []
  | pair {c : Char} {cs ds : List Char} : Requoted cs ds →
      Requoted ('\\' :: c :: cs) ('\\' :: c :: ds)
  | quote {cs ds : List Char} : Requoted cs ds → Requoted ('"' :: cs) ('\\' :: '"' :: ds)
  | plain {c : Char} {cs ds : List Char} : c ≠ '\\' → c ≠ '"' → Requoted cs ds →
      Requoted (c :: cs) (c :: ds)

namespace Cpp

theorem escapeText_plain {c : Char} (hslash : c ≠ '\\') (hquote : c ≠ '"') (cs : List Char) :
    escapeText (c :: cs) = c :: escapeText cs := by
  simp [escapeText, hslash, hquote]

theorem isClosed_cons {c : Char} (hslash : c ≠ '\\') (cs : List Char) :
    isClosed (c :: cs) = (decide (c ≠ '\n') && isClosed cs) := by
  rw [isClosed.eq_def]
  by_cases hline : c = '\n' <;> simp [hline, hslash]

/-- Closed text can be quoted anew: no backslash at its end keeps the closing quote. -/
theorem requoted_escapeText {cs : List Char} (h : isClosed cs = true) :
    Requoted cs (escapeText cs) := by
  fun_induction isClosed cs with
  | case1 => exact .nil
  | case2 | case3 => cases h
  | case4 d r _ ih => exact .pair (ih (Bool.and_eq_true_iff.mp h).2)
  | case5 c r _ hslash ih =>
    by_cases hquote : c = '"'
    · subst hquote
      exact .quote (ih h)
    · rw [escapeText_plain hslash hquote]
      exact .plain hslash hquote (ih h)

end Cpp

namespace Requoted

variable {cs ds : List Char}

theorem eq_escapeText (h : Requoted cs ds) : ds = Cpp.escapeText cs := by
  induction h with
  | nil => rfl
  | pair _ ih | quote _ ih => rw [ih]; rfl
  | plain hslash hquote _ ih => rw [ih, Cpp.escapeText_plain hslash hquote]

/-- Text without a bare double quote stays as it is. -/
theorem refl_of_isQuotable (h : isQuotable '"' cs = true) : Requoted cs cs := by
  fun_induction isQuotable '"' cs with
  | case1 => exact .nil
  | case2 | case3 => cases h
  | case4 d r _ ih => exact .pair (ih (Bool.and_eq_true_iff.mp h).2)
  | case5 c r hc hslash ih =>
    have hquote : c ≠ '"' := by
      rintro rfl
      exact hc rfl
    exact .plain hslash hquote (ih h)

/-- What has been quoted anew can stand between double quotes. -/
theorem isQuotable (h : Requoted cs ds) (hclosed : Cpp.isClosed cs = true) :
    isQuotable '"' ds = true := by
  induction h with
  | nil => rfl
  | @pair c cs ds _ ih =>
    have hpair : c ≠ '\n' ∧ Cpp.isClosed cs = true := by simpa [Cpp.isClosed] using hclosed
    simp [Braces.isQuotable, hpair.1, ih hpair.2]
  | quote _ ih =>
    rw [Cpp.isClosed_cons (c := '"') (by decide)] at hclosed
    simp [Braces.isQuotable, ih (Bool.and_eq_true_iff.mp hclosed).2]
  | @plain c cs ds hslash hquote _ ih =>
    have hrest : c ≠ '\n' ∧ Cpp.isClosed cs = true := by
      simpa [Cpp.isClosed_cons hslash] using hclosed
    rw [Braces.isQuotable.eq_def]
    simp [hslash, hquote, hrest.1, ih hrest.2]

end Requoted

/-- A single quoted text is scanned as one string. -/
theorem scan_quoted {v : String} (h : isQuotable '"' v.toList = true) :
    ∃ ts, scan (String.ofList ('"' :: v.toList ++ ['"'])) = .ok ts ∧
      kinds ts = [.str v, .newline, .eof] :=
  scan_spaced (.snoc .nil (.inl ⟨rfl, rfl⟩) (.str (.inl rfl) h))

/-- For the value of any string token, in whatever quotes it stood, the literal of the target is
text within a line. It is the value between double quotes, with bare double quotes escaped and all
else as it was; scanning finds this one string and nothing else in it, and its own literal is the
same. -/
theorem scan_stringLiteral {source : String} {ts : List Token} (h : scan source = .ok ts)
    {v : String} (hv : .str v ∈ kinds ts) :
    '\n' ∉ (Cpp.stringLiteral v).toList ∧
      ∃ w : String, Requoted v.toList w.toList ∧
        (∀ w' : String, Requoted v.toList w'.toList → w' = w) ∧
        Cpp.stringLiteral v = "\"" ++ w ++ "\"" ∧
        (∃ ts', scan (Cpp.stringLiteral v) = .ok ts' ∧ kinds ts' = [.str w, .newline, .eof]) ∧
        Cpp.stringLiteral w = Cpp.stringLiteral v := by
  obtain ⟨t, ht, hkind⟩ := List.mem_map.mp hv
  have hclosed : Cpp.isClosed v.toList = true := by
    have hwritten := isWritten_of_scan h t ht
    rwa [hkind] at hwritten
  obtain ⟨w, hw⟩ : ∃ w : String, w.toList = Cpp.escapeText v.toList :=
    ⟨_, String.toList_ofList⟩
  have hrequoted : Requoted v.toList w.toList := hw ▸ Cpp.requoted_escapeText hclosed
  have hquotable := hrequoted.isQuotable hclosed
  have hliteral : Cpp.stringLiteral v = String.ofList ('"' :: w.toList ++ ['"']) := by
    rw [hw]
    rfl
  refine ⟨(Cpp.inline_stringLiteral hclosed).flat, w, hrequoted, fun w' hw' => ?_, ?_, ?_, ?_⟩
  · rw [← String.toList_inj, hw, hw'.eq_escapeText]
  · rw [hliteral, ← String.toList_inj]
    simp
  · rw [hliteral]
    exact scan_quoted hquotable
  · rw [hliteral, (Requoted.refl_of_isQuotable hquotable).eq_escapeText]
    simp [Cpp.stringLiteral]

/-- Single quotes around double ones, bare and escaped, an escaped single quote and a backslash. -/
def mixedQuotes : String := "print('a\"b\\\"c\\'d\\\\', 1)"

/-- What stands between the quotes. -/
def mixedValue : String := "a\"b\\\"c\\'d\\\\"

/-- The value with its bare double quote escaped. -/
def mixedEscaped : String := "a\\\"b\\\"c\\'d\\\\"

theorem scan_stringLiteral_mixedQuotes :
    ∃ ts, scan mixedQuotes = .ok ts ∧ .str mixedValue ∈ kinds ts ∧
      '\n' ∉ (Cpp.stringLiteral mixedValue).toList ∧
      Requoted mixedValue.toList mixedEscaped.toList ∧
      (∃ ts', scan (Cpp.stringLiteral mixedValue) = .ok ts' ∧
        kinds ts' = [.str mixedEscaped, .newline, .eof]) ∧
      Cpp.stringLiteral mixedEscaped = Cpp.stringLiteral mixedValue := by
  have hfound : (scan mixedQuotes).toOption.map (fun ts => decide (.str mixedValue ∈ kinds ts)) =
      some true := by decide +kernel
  have hescaped : Cpp.escapeText mixedValue.toList = mixedEscaped.toList := by
    decide +kernel
  cases hscan : scan mixedQuotes with
  | error e =>
    rw [hscan] at hfound
    cases hfound
  | ok ts =>
    rw [hscan] at hfound
    have hmem : .str mixedValue ∈ kinds ts := by simpa [Except.toOption] using hfound
    obtain ⟨hflat, w, hrequoted, -, -, hread, hsame⟩ := scan_stringLiteral hscan hmem
    obtain rfl : w = mixedEscaped := by
      rw [← String.toList_inj, hrequoted.eq_escapeText, hescaped]
    exact ⟨ts, rfl, hmem, hflat, hrequoted, hread, hsame⟩

end Braces
