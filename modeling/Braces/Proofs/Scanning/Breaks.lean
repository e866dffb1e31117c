import Mathlib.Data.List.Find
import Braces.Proofs.Scanning.Steps

/-!
# Pieces before a line break

No lexeme goes on over a line break, whether a carriage return stands before its newline or not. So
what a piece is depends on its own line only, and text that is scanned up to the start of a line is
scanned alike whatever follows.
-/

namespace Braces

/-- A character that does not belong to a class ends what is taken of the class. -/
theorem takeWhile_append_cons {p : Char → Bool} {c : Char} (hc : p c = false) (cs r : List Char) :
    (cs ++ c :: r).takeWhile p = cs.takeWhile p ∧
      (cs ++ c :: r).dropWhile p = cs.dropWhile p ++ c :: r := by
  induction cs with
  | nil => simp [hc]
  | cons d cs ih =>
    by_cases hd : p d = true
    · simp [hd, ih]
    · simp [hd]

/-- The text starts with a line break. -/
inductive StartsBreak : List Char → Prop
  | newline (rest : List Char) : StartsBreak ('\n' :: rest)
  | carriage (rest : List Char) : StartsBreak ('\r' :: '\n' :: rest)

/-! ## Lexemes -/

namespace StartsBreak

variable {t : List Char}

theorem exists_cons (h : StartsBreak t) : ∃ c r, t = c :: r ∧ (c = '\n' ∨ c = '\r') := by
  cases h with
  | newline rest => exact ⟨_, _, rfl, .inl rfl⟩
  | carriage rest => exact ⟨_, _, rfl, .inr rfl⟩

theorem takeWhile_append {p : Char → Bool} (h : StartsBreak t)
    (hp : p '\n' = false ∧ p '\r' = false) (cs : List Char) :
    (cs ++ t).takeWhile p = cs.takeWhile p ∧ (cs ++ t).dropWhile p = cs.dropWhile p ++ t := by
  obtain ⟨c, r, rfl, rfl | rfl⟩ := h.exists_cons
  · exact takeWhile_append_cons hp.1 cs r
  · exact takeWhile_append_cons hp.2 cs r

theorem readNumber_append (h : StartsBreak t) (cs : List Char) :
    readNumber (cs ++ t) = (readNumber cs).map fun x => (x.1, x.2 ++ t) := by
  have hdigit : Char.isDigit '\n' = false ∧ Char.isDigit '\r' = false := by decide
  have hint : ∀ rest : List Char, (∀ r, rest ≠ '.' :: r) → (∀ r, rest ++ t ≠ '.' :: r) := by
    intro rest hrest r heq
    cases rest with
    | nil =>
      obtain ⟨c, _, rfl, hc⟩ := h.exists_cons
      obtain rfl : c = '.' := (List.cons.inj heq).1
      revert hc
      decide
    | cons d rest => exact hrest rest (congrArg (· :: rest) (List.cons.inj heq).1)
  obtain ⟨htake, hdrop⟩ := h.takeWhile_append hdigit cs
  unfold readNumber
  rw [htake, hdrop]
  by_cases hpoint : ∃ r, cs.dropWhile Char.isDigit = '.' :: r
  · obtain ⟨r, hr⟩ := hpoint
    obtain ⟨htake', hdrop'⟩ := h.takeWhile_append hdigit r
    rw [hr, List.cons_append]
    simp only [htake', hdrop']
    rfl
  · have hnone : ∀ r, cs.dropWhile Char.isDigit ≠ '.' :: r := fun r hr => hpoint ⟨r, hr⟩
    generalize cs.dropWhile Char.isDigit = rest at hnone ⊢
    split
    · next r hr => exact absurd hr (hint _ hnone r)
    · dsimp only
      split <;> rfl

/-- A string is not closed after a line break. -/
theorem readQuoted_append (h : StartsBreak t) {quote : Char} (hquote : quote = '"' ∨ quote = '\'')
    (cs : List Char) :
    readQuoted quote (cs ++ t) = (readQuoted quote cs).map fun x => (x.1, x.2 ++ t) := by
  have hnewline : ∀ rest, readQuoted quote ('\n' :: rest) = none := by
    obtain rfl | rfl := hquote <;> intro rest <;> unfold readQuoted <;> rfl
  have hbreak : readQuoted quote t = none := by
    cases h with
    | newline rest => exact hnewline rest
    | carriage rest =>
      unfold readQuoted
      rw [hnewline rest]
      obtain rfl | rfl := hquote <;> rfl
  fun_induction readQuoted quote cs with
  | case1 => exact hbreak
  | case2 r =>
    unfold readQuoted
    simp
  | case3 r _ => exact hnewline _
  | case4 =>
    unfold readQuoted
    cases h with
    | newline rest => simp_all
    | carriage rest => simp_all
  | case5 r hslash =>
    rw [List.cons_append, List.cons_append, readQuoted, if_neg hslash]
    rfl
  | case6 d r hd hslash hline ih =>
    rw [List.cons_append, List.cons_append, readQuoted, if_neg hslash, if_neg hline, if_pos rfl]
    simp only [if_neg hd, ih, Option.map_map]
    rfl
  | case7 c r hc hline hslash ih =>
    rw [List.cons_append, readQuoted.eq_def]
    simp only [if_neg hc, if_neg hline, if_neg hslash, ih, Option.map_map]
    rfl

theorem isPrefixOf_append (h : StartsBreak t) {spelling : List Char}
    (hspelling : '\n' ∉ spelling ∧ '\r' ∉ spelling) (cs : List Char) :
    spelling.isPrefixOf (cs ++ t) = spelling.isPrefixOf cs := by
  obtain ⟨c, r, rfl, hc⟩ := h.exists_cons
  induction cs generalizing spelling with
  | nil =>
    cases spelling with
    | nil => rfl
    | cons d spelling =>
      have hne : d ≠ c := by
        rintro rfl
        obtain rfl | rfl := hc
        · exact hspelling.1 List.mem_cons_self
        · exact hspelling.2 List.mem_cons_self
      simp [List.isPrefixOf, hne]
  | cons d cs ih =>
    cases spelling with
    | nil => rfl
    | cons d' spelling =>
      rw [List.cons_append, List.isPrefixOf, List.isPrefixOf, ih]
      exact ⟨fun hmem => hspelling.1 (List.mem_cons_of_mem _ hmem),
        fun hmem => hspelling.2 (List.mem_cons_of_mem _ hmem)⟩

theorem readSymbol_append (h : StartsBreak t) (c : Char) (r : List Char) :
    readSymbol c (r ++ t) = (readSymbol c r).map fun x => (x.1, x.2 ++ t) := by
  have hspelling : ∀ s ∈ Symbol.all, '\n' ∉ s.spelling.toList ∧
      '\r' ∉ s.spelling.toList := by decide
  have hfind : Symbol.all.find? (fun s => s.spelling.toList.isPrefixOf (c :: (r ++ t))) =
      Symbol.all.find? fun s => s.spelling.toList.isPrefixOf (c :: r) := by
    refine List.find?_congr fun s hs => ?_
    rw [← List.cons_append, h.isPrefixOf_append (hspelling s hs)]
  rw [readSymbol_eq, readSymbol_eq, hfind]
  cases hs : Symbol.all.find? (fun s => s.spelling.toList.isPrefixOf (c :: r)) with
  | none => rfl
  | some s =>
    have hstarts : s.spelling.toList <+: c :: r := by simpa using List.find?_some hs
    have hdrop : (c :: (r ++ t)).drop s.spelling.toList.length =
        (c :: r).drop s.spelling.toList.length ++ t :=
      List.drop_append_of_le_length hstarts.length_le
    simp only [hdrop]
    rfl

/-- A piece that starts a lexeme is read in the same way before a line break as at the end of the
text. -/
theorem readPiece_append (h : StartsBreak t) {c : Char} (hc : isPlain c = true) (r : List Char) :
    readPiece c (r ++ t) = (readPiece c r).map fun x => (x.1, x.2 ++ t) := by
  have hnumber : startsNumber c (r ++ t) = startsNumber c r := by
    cases r with
    | nil =>
      obtain ⟨d, rest, rfl, rfl | rfl⟩ := h.exists_cons <;> rfl
    | cons d r => rfl
  have hword : Text.continuesWord '\n' = false ∧ Text.continuesWord '\r' = false := by
    decide +kernel
  rw [readPiece_of_isPlain hc, readPiece_of_isPlain hc, hnumber]
  split
  · exact h.readNumber_append (c :: r)
  split
  · obtain ⟨htake, hdrop⟩ := h.takeWhile_append hword (c :: r)
    rw [List.cons_append] at htake hdrop
    rw [readWord, htake, hdrop]
    rfl
  split
  · next hquote =>
    rw [readString, h.readQuoted_append (by simpa using hquote), readString]
    cases readQuoted c r <;> rfl
  · exact h.readSymbol_append c r

end StartsBreak

/-! ## What follows a line -/

/-- A backslash only ever joins two lines. -/
theorem readPiece_backslash (r : List Char) :
    readPiece '\\' r =
      if r.head? = some '\n' then .ok (.joint, r.drop 1)
        else .error (.unexpectedCharacter '\\') := by
  have hsymbol : readSymbol '\\' r = .error (.unexpectedCharacter '\\') := by
    have hnone : Symbol.all.find? (fun s => s.spelling.toList.isPrefixOf ('\\' :: r)) = none := by
      refine List.find?_eq_none.mpr fun s _ hstarts => ?_
      obtain ⟨c, more, heq, hc⟩ := s.head_spelling
      rw [heq, List.isPrefixOf_cons_cons, Bool.and_eq_true, beq_iff_eq] at hstarts
      rw [hstarts.1] at hc
      revert hc
      decide +kernel
    rw [readSymbol_eq, hnone]
  have hword : Text.startsWord '\\' = false := by decide +kernel
  simp [readPiece, isBlank, startsNumber, hword, hsymbol]

/-- A comment goes up to the end of its line. -/
theorem readPiece_comment {body rest : List Char} (hbody : '\n' ∉ body)
    (hrest : rest.head?.all (· = '\n') = true) :
    readPiece '#' (body ++ rest) = .ok (.comment body, rest) := by
  have hall : body.all (· ≠ '\n') = true :=
    List.all_eq_true.2 fun c hc => decide_eq_true fun heq => hbody (heq ▸ hc)
  have hstop : rest.head?.all (fun c => !decide (c ≠ '\n')) = true := by simpa using hrest
  obtain ⟨htake, hdrop⟩ := Cpp.takeWhile_append_of_all hall hstop
  simp only [readPiece, htake, hdrop]
  rfl

/-- A text that ends with a newline. -/
def EndsLine (cs : List Char) : Prop := cs.getLast? = some '\n'

theorem EndsLine.exists_append {cs : List Char} (h : EndsLine cs) : ∃ line, cs = line ++ ['\n'] :=
  List.getLast?_eq_some_iff.1 h

theorem EndsLine.of_suffix {cs rest : List Char} (h : EndsLine cs) (hsuffix : rest <:+ cs)
    (hrest : rest ≠ []) : EndsLine rest := by
  obtain ⟨front, rfl⟩ := hsuffix
  rwa [EndsLine, List.getLast?_append_of_ne_nil front hrest] at h

/-- A piece of a text that ends with a newline is a piece of every text that goes on from there. -/
theorem readPiece_append {c : Char} {r : List Char} (h : EndsLine (c :: r)) (b : List Char) :
    readPiece c (r ++ b) = (readPiece c r).map fun x => (x.1, x.2 ++ b) := by
  by_cases hline : c = '\n'
  · subst hline
    rfl
  have hr : r ≠ [] := by
    rintro rfl
    exact hline (Option.some.inj h)
  obtain ⟨line, rfl⟩ := (h.of_suffix (List.suffix_cons c r) hr).exists_append
  rw [List.append_assoc, List.singleton_append]
  by_cases hblank : isBlank c = true
  · simp [readPiece, hline, hblank, Except.map]
  by_cases hcomment : c = '#'
  · have hstop : decide ('\n' ≠ '\n') = false := by decide
    have hbody := takeWhile_append_cons (p := (· ≠ '\n')) hstop line
    subst hcomment
    simp only [readPiece, hline, hblank, hbody b, hbody [], if_true, if_false]
    simp [Except.map]
  by_cases hjoint : c = '\\'
  · subst hjoint
    rw [readPiece_backslash, readPiece_backslash]
    cases line with
    | nil => rfl
    | cons d line =>
      rw [List.cons_append, List.cons_append, List.head?_cons, List.head?_cons]
      split
      · simp [Except.map]
      · rfl
  have hplain : isPlain c = true := by
    simp_all [isPlain, isBlank]
  rw [(StartsBreak.newline b).readPiece_append hplain,
    (StartsBreak.newline []).readPiece_append hplain]
  cases readPiece c line with
  | error fault => rfl
  | ok x => simp [Except.map]

/-! ## Steps -/

namespace Scanner

variable {s s' : Scanner} {a rest : List Char}

theorem suffix_afterBlanks (s : Scanner) (cs : List Char) : s.afterBlanks cs <:+ cs := by
  unfold afterBlanks
  split
  · exact List.dropWhile_suffix _
  · exact List.suffix_rfl

theorem suffix_of_step (h : s.step a = .ok (s', rest)) : rest <:+ a := by
  obtain ⟨s₁, -, ⟨-, -, rfl⟩ | ⟨c, r, p, hcs, hp, -⟩⟩ := step_eq_ok_iff.1 h
  · exact List.nil_suffix
  · have hsuffix := s.suffix_afterBlanks a
    rw [hcs, ← readPiece_text hp] at hsuffix
    exact (List.suffix_append _ _).trans hsuffix

theorem lineStart_of_layout (h : s.layout a = .ok s') : s'.lineStart = false := by
  cases entered_of_layout h with
  | within hstart => exact hstart
  | blank | indent => rfl
  | dedent => exact (close_eq _ (s.enter a)).2.2.1

/-- Only a newline is followed by the start of a line. -/
theorem eq_newline_of_lineStart {p : Piece} (hs : s.lineStart = false)
    (h : (s.take p).lineStart = true) :
    p = .newline := by
  cases p with
  | newline => rfl
  | blank | comment | joint | lexeme =>
    have hkept : s.lineStart = true := h
    rw [hs] at hkept
    cases hkept

/-- Where a line starts, a line has ended. -/
theorem endsLine_of_run (ha : a ≠ []) (h : s.run a = .ok s') (hstart : s'.lineStart = true) :
    EndsLine a := by
  fun_induction run s a with
  | case1 => exact absurd rfl ha
  | case2 => cases h
  | case3 s cs hcs s₁ r₁ hstep _ ih =>
    by_cases hr : r₁ = []
    · subst hr
      rw [run_nil] at h
      cases h
      obtain ⟨s₂, hlayout, ⟨-, rfl, -⟩ | ⟨c, r, p, hrest, hp, rfl⟩⟩ := step_eq_ok_iff.1 hstep
      · rw [lineStart_of_layout hlayout] at hstart
        cases hstart
      · obtain rfl := eq_newline_of_lineStart (lineStart_of_layout hlayout) hstart
        obtain ⟨front, hfront⟩ := s.suffix_afterBlanks cs
        rw [hrest, ← readPiece_text hp] at hfront
        exact List.getLast?_eq_some_iff.2 ⟨front, hfront.symm⟩
    · obtain ⟨front, rfl⟩ := suffix_of_step hstep
      rw [EndsLine, List.getLast?_append_of_ne_nil front hr]
      exact ih hr h

/-- The text after the blanks matters to the layout of a line only where it fails. -/
theorem indentTo_congr {width : Nat} (h : s.indentTo width a = .ok s') (b : List Char) :
    s.indentTo width b = .ok s' := by
  unfold indentTo at h ⊢
  split at h
  · next hlt => rwa [if_pos hlt]
  · next hlt =>
    rw [if_neg hlt]
    dsimp only at h ⊢
    split at h
    · next heq => rwa [if_pos heq]
    · cases h

theorem layout_append (ha : EndsLine a) (h : s.layout a = .ok s') (b : List Char) :
    s.layout (a ++ b) = .ok s' ∧ s.afterBlanks (a ++ b) = s.afterBlanks a ++ b ∧
      s.afterBlanks a ≠ [] := by
  obtain ⟨line, rfl⟩ := ha.exists_append
  rw [List.append_assoc, List.singleton_append]
  by_cases hstart : s.lineStart = true
  · obtain ⟨htake, hdrop⟩ := takeWhile_append_cons (p := isIndentation) (c := '\n') rfl line []
    obtain ⟨htake', hdrop'⟩ := takeWhile_append_cons (p := isIndentation) (c := '\n') rfl line b
    have hblank : startsBlankLine (line.dropWhile isIndentation ++ '\n' :: b) =
        startsBlankLine (line.dropWhile isIndentation ++ ['\n']) := by
      cases line.dropWhile isIndentation <;> rfl
    unfold layout at h ⊢
    unfold afterBlanks
    simp only [hstart, if_true, htake, hdrop, htake', hdrop', hblank] at h ⊢
    refine ⟨?_, by simp, by simp⟩
    split at h
    · next heq => rwa [if_pos heq]
    · next heq =>
      rw [if_neg heq]
      exact indentTo_congr h _
  · unfold layout at h ⊢
    unfold afterBlanks
    simp only [hstart] at h ⊢
    exact ⟨h, by simp, by simp⟩

/-- A step on a text that ends with a newline is a step on every text that goes on from there. -/
theorem step_append (ha : EndsLine a) (h : s.step a = .ok (s', rest)) (b : List Char) :
    s.step (a ++ b) = .ok (s', rest ++ b) := by
  obtain ⟨s₁, hlayout, hpiece⟩ := step_eq_ok_iff.1 h
  obtain ⟨hlayout', hblanks, hne⟩ := layout_append ha hlayout b
  obtain ⟨hnil, -, -⟩ | ⟨c, r, p, hcs, hp, rfl⟩ := hpiece
  · exact absurd hnil hne
  · have hends : EndsLine (c :: r) := hcs ▸ ha.of_suffix (s.suffix_afterBlanks a) hne
    refine step_eq_ok_iff.2 ⟨s₁, hlayout', .inr ⟨c, r ++ b, p, ?_, ?_, rfl⟩⟩
    · rw [hblanks, hcs, List.cons_append]
    · rw [readPiece_append hends, hp]
      rfl

/-- Text that is scanned up to the start of a line is scanned in the same way whatever follows
it. -/
theorem run_append (h : s.run a = .ok s') (hstart : s'.lineStart = true) (b : List Char) :
    s.run (a ++ b) = s'.run b := by
  fun_induction run s a with
  | case1 s =>
    cases h
    rfl
  | case2 => cases h
  | case3 s cs hcs s₁ r₁ hstep _ ih =>
    have hends : EndsLine cs := by
      refine endsLine_of_run (s := s) hcs ?_ hstart
      rwa [run_eq_of_step s hcs, hstep]
    rw [run_eq_of_step s (List.append_ne_nil_of_left_ne_nil hcs b), step_append hends hstep b]
    exact ih h

end Scanner

end Braces
