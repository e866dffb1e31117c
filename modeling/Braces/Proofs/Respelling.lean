import Braces.Proofs.Scanning.Steps
import Mathlib.Data.List.Induction

/-!
# Scanning undoes spelling

Tokens that are spelled one after another, with something between each two of them, are what
scanning the text gives, and an integer that is too large is a failure wherever it stands. Between
two tokens stand blanks and line joints, and between brackets also newlines and comments.
-/

namespace Braces

/-! ## Spaced tokens -/

/-- The brackets that are open after one more token. Closing with nothing open leaves none. -/
def openAfter (depth : Nat) (k : Kind) : Nat :=
  if k = .symbol .openParen ∨ k = .symbol .openSquare then depth + 1
  else if k = .symbol .closeParen ∨ k = .symbol .closeSquare then depth - 1
  else depth

/-- The brackets that are open after some tokens. -/
def openBrackets (ks : List Kind) : Nat := ks.foldl openAfter 0

/-- Something that may stand between two tokens, with so many brackets open. -/
inductive Filler (depth : Nat) : List Char → Prop
  | blank {c : Char} : c = ' ' ∨ c = '\t' ∨ c = '\x0c' → Filler depth [c]
  | joint : Filler depth ['\\', '\n']
  | newline : 0 < depth → Filler depth ['\n']
  | comment {body : List Char} : 0 < depth → '\n' ∉ body → Filler depth ('#' :: (body ++ ['\n']))

inductive Separator (depth : Nat) : List Char → Prop
  | single {text : List Char} : Filler depth text → Separator depth text
  | more {text rest : List Char} : Filler depth text → Separator depth rest →
      Separator depth (text ++ rest)

/-- What stands before the next token: nothing before the first one, and a separator after
others. -/
def Gap (ks : List Kind) (text : List Char) : Prop :=
  ks = [] ∧ text = [] ∨ ks ≠ [] ∧ Separator (openBrackets ks) text

/-- Tokens that are spelled one after another. -/
inductive Spaced : List Kind → List Char → Prop
  | nil : Spaced [] []
  | snoc {ks : List Kind} {k : Kind} {front gap text : List Char} : Spaced ks front → Gap ks gap →
      k.SpelledAs text → Spaced (ks ++ [k]) (front ++ (gap ++ text))

/-- Kinds with a spelling and no float in them. A string needs a quote that can stand around it. -/
def Kind.isSpellable : Kind → Bool
  | .keyword _ | .symbol _ | .bool _ => true
  | .int n => 0 ≤ n && n ≤ maxInteger
  | .ident name => isIdentifier name
  | .str s => isQuotable '"' s.toList || isQuotable '\'' s.toList
  | .float _ | .newline | .indent | .dedent | .eof => false

theorem exists_spelledAs {k : Kind} (h : k.isSpellable = true) : ∃ text, k.SpelledAs text := by
  cases k with
  | keyword k => exact ⟨_, .fixed rfl⟩
  | symbol s => exact ⟨_, .fixed rfl⟩
  | bool b => exact ⟨_, .bool b⟩
  | ident name => exact ⟨_, .ident h⟩
  | int n =>
    simp only [Kind.isSpellable, Bool.and_eq_true, decide_eq_true_eq] at h
    obtain ⟨m, rfl⟩ := Int.eq_ofNat_of_zero_le h.1
    have hdigits : (Nat.toDigits 10 m).all Char.isDigit = true :=
      List.all_eq_true.mpr fun c hc => Cpp.isDigit_of_mem_toDigits hc
    have hle : Double.digitsValue (Nat.toDigits 10 m) ≤ maxInteger := by
      rw [digitsValue_toDigits]
      exact Int.ofNat_le.mp h.2
    have hspelled := Kind.SpelledAs.int Nat.toDigits_ne_nil hdigits hle
    rw [digitsValue_toDigits] at hspelled
    exact ⟨_, hspelled⟩
  | str s =>
    obtain h | h := Bool.or_eq_true_iff.mp h
    · exact ⟨_, .str (.inl rfl) h⟩
    · exact ⟨_, .str (.inr rfl) h⟩
  | float | newline | indent | dedent | eof => cases h

/-- One blank between each two tokens is enough. -/
theorem exists_spaced {ks : List Kind} (h : ∀ k ∈ ks, k.isSpellable = true) :
    ∃ text, Spaced ks text := by
  induction ks using List.reverseRecOn with
  | nil => exact ⟨[], .nil⟩
  | append_singleton ks k ih =>
    obtain ⟨front, hfront⟩ := ih fun k hk => h k (List.mem_append_left _ hk)
    obtain ⟨text, htext⟩ := exists_spelledAs (h k (List.mem_append_right _ List.mem_cons_self))
    by_cases hne : ks = []
    · exact ⟨_, hfront.snoc (.inl ⟨hne, rfl⟩) htext⟩
    · exact ⟨_, hfront.snoc (.inr ⟨hne, .single (.blank (.inl rfl))⟩) htext⟩

/-! ## Reading lexemes back -/

/-- Characters with which what stands between two tokens starts. -/
def breaksOff (c : Char) : Bool := c ∈ [' ', '\t', '\x0c', '\\', '\n', '#']

theorem Filler.head {depth : Nat} {text : List Char} (h : Filler depth text) :
    ∃ c r, text = c :: r ∧ breaksOff c = true := by
  cases h with
  | blank hc => exact ⟨_, _, rfl, by obtain rfl | rfl | rfl := hc <;> rfl⟩
  | joint | newline | comment => exact ⟨_, _, rfl, rfl⟩

theorem Separator.head {depth : Nat} {text : List Char} (h : Separator depth text) :
    ∃ c r, text = c :: r ∧ breaksOff c = true := by
  cases h with
  | single h => exact h.head
  | more h _ =>
    obtain ⟨c, r, rfl, hc⟩ := h.head
    exact ⟨c, _, rfl, hc⟩

theorem Gap.head {ks : List Kind} {gap : List Char} (h : Gap ks gap) (rest : List Char)
    (hne : ks ≠ []) : (gap ++ rest).head?.all breaksOff = true := by
  obtain ⟨hnil, -⟩ | ⟨-, h⟩ := h
  · exact absurd hnil hne
  · obtain ⟨c, r, rfl, hc⟩ := h.head
    exact hc

theorem readNumber_fraction {whole fraction rest : List Char}
    (hwhole : whole.all Char.isDigit = true)
    (hfraction : fraction.all Char.isDigit = true)
    (hrest : rest.head?.all (!Char.isDigit ·) = true) :
    readNumber (whole ++ '.' :: (fraction ++ rest)) =
      .ok (.lexeme (.float (.ofDigits false whole fraction 0))
        (whole ++ '.' :: fraction), rest) := by
  obtain ⟨htake, hdrop⟩ := @Cpp.takeWhile_append_of_all _ _ ('.' :: (fraction ++ rest)) hwhole rfl
  obtain ⟨htake', hdrop'⟩ := Cpp.takeWhile_append_of_all hfraction hrest
  simp [readNumber, htake, hdrop, htake', hdrop']

theorem readPiece_fraction {whole fraction : List Char} (hne : whole ≠ [] ∨ fraction ≠ [])
    (hwhole : whole.all Char.isDigit = true) (hfraction : fraction.all Char.isDigit = true)
    (rest : List Char) :
    ∃ c r, whole ++ '.' :: (fraction ++ rest) = c :: r ∧
      readPiece c r = readNumber (whole ++ '.' :: (fraction ++ rest)) := by
  cases whole with
  | cons c whole =>
    rw [List.all_cons, Bool.and_eq_true] at hwhole
    refine ⟨c, whole ++ '.' :: (fraction ++ rest), rfl, ?_⟩
    simp [readPiece_of_isPlain (isPlain_of_isDigit hwhole.1), startsNumber, hwhole.1]
  | nil =>
    cases fraction with
    | nil => simp at hne
    | cons d fraction =>
      rw [List.all_cons, Bool.and_eq_true] at hfraction
      refine ⟨'.', d :: (fraction ++ rest), rfl, ?_⟩
      have hplain : isPlain '.' = true := by decide
      simp [readPiece_of_isPlain hplain, startsNumber, hfraction.1]

/-- A spelled token is read back, if what follows breaks it off. -/
theorem Kind.SpelledAs.reads {k : Kind} {text rest : List Char} (h : k.SpelledAs text)
    (hrest : rest.head?.all breaksOff = true) :
    ∃ c r, text ++ rest = c :: r ∧ readPiece c r = .ok (.lexeme k text, rest) := by
  have hword : rest.head?.all (!Text.continuesWord ·) = true :=
    all_head?_of_mem (by decide +kernel) hrest
  have hnumber : rest.head?.all (fun c => !c.isDigit && c ≠ '.') = true :=
    all_head?_of_mem (by decide) hrest
  cases h with
  | @fixed k text hk =>
    cases k with
    | keyword k =>
      cases hk
      have hread := readPiece_name (Piece.isName_spelling k) hword
      rwa [Piece.wordKind_spelling] at hread
    | symbol s =>
      cases hk
      exact readPiece_symbol s fun _ => all_head?_of_mem (by decide) hrest
    | _ => cases hk
  | bool b =>
    cases b with
    | true => exact @readPiece_name "True" _ rfl hword
    | false => exact @readPiece_name "False" _ rfl hword
  | @ident name hname =>
    have hread := readPiece_name (Bool.and_eq_true_iff.mp hname).1 hword
    rwa [Piece.wordKind_of_isIdentifier hname] at hread
  | int hne hdigits hle =>
    obtain ⟨c, r, heq, hread⟩ := readPiece_digits hne hdigits rest
    rw [readNumber_digits hdigits hnumber, if_pos hle] at hread
    exact ⟨c, r, heq, hread⟩
  | @float whole fraction hne hwhole hfraction =>
    obtain ⟨c, r, heq, hread⟩ := readPiece_fraction hne hwhole hfraction rest
    rw [readNumber_fraction hwhole hfraction (all_head?_of_mem (by decide) hrest)] at hread
    exact ⟨c, r, by rw [← heq]; simp, hread⟩
  | @str quote s hquote hs =>
    exact ⟨quote, s.toList ++ quote :: rest, by simp, readPiece_string hquote hs rest⟩

/-- Lexemes start with no layout and no comment. -/
theorem isPlain_of_readPiece {c : Char} {r rest text : List Char} {k : Kind}
    (h : readPiece c r = .ok (.lexeme k text, rest)) : isPlain c = true := by
  have hread := pieceRead c r
  rw [h] at hread
  cases hread with
  | number hc _ =>
    simp only [startsNumber, Bool.or_eq_true, Bool.and_eq_true, decide_eq_true_eq] at hc
    obtain hc | ⟨rfl, -⟩ := hc
    · exact isPlain_of_isDigit hc
    · decide
  | word hc => exact isPlain_of_startsWord hc
  | string hc _ => obtain rfl | rfl := hc <;> decide
  | symbol hs =>
    rw [readSymbol_eq] at hs
    split at hs
    · next s hfind =>
      have hstarts : s.spelling.toList.isPrefixOf (c :: r) = true := by
        simpa using List.find?_some hfind
      obtain ⟨d, r', hspelling, hd⟩ := s.head_spelling
      rw [hspelling, List.isPrefixOf_iff_prefix, List.cons_prefix_cons] at hstarts
      obtain ⟨rfl, -⟩ := hstarts
      simp only [Bool.and_eq_true] at hd
      exact hd.1.1.1.1.1
    · cases hs

theorem Spaced.head {ks : List Kind} {text : List Char} (h : Spaced ks text) :
    ks = [] ∧ text = [] ∨ ∃ c r, text = c :: r ∧ isPlain c = true := by
  induction h with
  | nil => exact .inl ⟨rfl, rfl⟩
  | @snoc ks k front gap text _ hgap hk ih =>
    right
    obtain ⟨rfl, rfl⟩ | ⟨c, r, rfl, hc⟩ := ih
    · obtain ⟨-, rfl⟩ | ⟨hne, -⟩ := hgap
      · obtain ⟨c, r, heq, hread⟩ := @Kind.SpelledAs.reads _ _ [] hk rfl
        rw [List.append_nil] at heq
        exact ⟨c, r, heq, isPlain_of_readPiece hread⟩
      · exact absurd rfl hne
    · exact ⟨c, _, rfl, hc⟩

/-! ## The scanner within a line -/

theorem openAfter_eq (depth : Nat) (k : Kind) :
    openAfter depth k = Scanner.nestingAfter depth k := by
  cases k with
  | symbol s => cases s <;> rfl
  | _ => rfl

theorem openBrackets_eq (ks : List Kind) : openBrackets ks = ks.foldl Scanner.nestingAfter 0 := by
  have hfun : openAfter = Scanner.nestingAfter := by
    funext depth k
    exact openAfter_eq depth k
  rw [openBrackets, hfun]

namespace Scanner

variable {s : Scanner} {text rest : List Char}

/-- A newline between brackets is taken over like a blank. -/
theorem advances_take_newline (h : 0 < s.nesting) (hs : s.lineStart = false) :
    s.Advances (s.take .newline) [] := by
  have hne : s.nesting ≠ 0 := by omega
  simp only [take, if_neg hne]
  exact ⟨by simp [hs, hne], rfl, rfl, rfl⟩

theorem run_filler (hs : s.lineStart = false) (h : Filler s.nesting text) (rest : List Char) :
    ∃ s', s.run (text ++ rest) = s'.run rest ∧ s.Advances s' [] := by
  cases h with
  | @blank c hc =>
    have hread : readPiece c rest = .ok (.blank c, rest) := by
      obtain rfl | rfl | rfl := hc <;> rfl
    exact ⟨_, run_piece hs hread, rfl, rfl, rfl, rfl⟩
  | joint =>
    have hread : readPiece '\\' ('\n' :: rest) = .ok (.joint, rest) := rfl
    exact ⟨_, run_piece hs hread, rfl, rfl, rfl, rfl⟩
  | newline hdepth => exact ⟨_, run_piece hs rfl, advances_take_newline hdepth hs⟩
  | @comment body hdepth hbody =>
    obtain ⟨htake, hdrop⟩ := @Cpp.takeWhile_append_of_all (· ≠ '\n') body ('\n' :: rest)
      (by simpa using fun c hc (heq : c = '\n') => hbody (heq ▸ hc)) rfl
    have hread : readPiece '#' (body ++ '\n' :: rest) =
        .ok (.comment ((body ++ '\n' :: rest).takeWhile (· ≠ '\n')),
          (body ++ '\n' :: rest).dropWhile (· ≠ '\n')) := rfl
    rw [htake, hdrop] at hread
    refine ⟨(s.take (.comment body)).take .newline, ?_, ?_⟩
    · rw [List.cons_append, List.append_assoc, List.singleton_append, run_piece hs hread]
      exact run_piece hs rfl
    · have hbody : s.Advances (s.take (.comment body)) [] := ⟨rfl, rfl, rfl, rfl⟩
      exact hbody.trans (advances_take_newline hdepth hs)

theorem run_separator {depth : Nat} (hs : s.lineStart = false) (hdepth : s.nesting = depth)
    (h : Separator depth text) (rest : List Char) :
    ∃ s', s.run (text ++ rest) = s'.run rest ∧ s.Advances s' [] := by
  induction h generalizing s with
  | single h => exact run_filler hs (hdepth ▸ h) rest
  | @more text more h _ ih =>
    obtain ⟨s₁, hrun₁, hadvances₁⟩ := run_filler hs (hdepth ▸ h) (more ++ rest)
    obtain ⟨s', hrun, hadvances⟩ :=
      ih (hadvances₁.lineStart.trans hs) (hadvances₁.nesting.trans hdepth)
    refine ⟨s', ?_, hadvances₁.trans hadvances⟩
    rw [List.append_assoc, hrun₁, hrun]

theorem run_gap {ks : List Kind} (hs : s.lineStart = false) (hks : s.nesting = openBrackets ks)
    (h : Gap ks text) (rest : List Char) :
    ∃ s', s.run (text ++ rest) = s'.run rest ∧ s.Advances s' [] := by
  obtain ⟨-, rfl⟩ | ⟨-, h⟩ := h
  · exact ⟨s, rfl, .refl s⟩
  · exact run_separator hs hks h rest

theorem run_lexeme {k : Kind} (hs : s.lineStart = false) (h : k.SpelledAs text)
    (hrest : rest.head?.all breaksOff = true) :
    ∃ s', s.run (text ++ rest) = s'.run rest ∧ s.Advances s' [k] := by
  obtain ⟨c, r, heq, hread⟩ := h.reads hrest
  refine ⟨s.take (.lexeme k text), ?_, rfl, rfl, rfl, rfl⟩
  rw [heq, run_piece hs hread]

/-- The scanner finds tokens that are spelled one after another. -/
theorem run_spaced {ks : List Kind} (hs : s.lineStart = false) (hnesting : s.nesting = 0)
    (h : Spaced ks text) (hrest : ks ≠ [] → rest.head?.all breaksOff = true) :
    ∃ s', s.run (text ++ rest) = s'.run rest ∧ s.Advances s' ks := by
  -- The last token comes off first: what a gap may hold depends on the brackets that all tokens
  -- before it leave open.
  induction h generalizing rest with
  | nil => exact ⟨s, rfl, .refl s⟩
  | @snoc ks k front gap text _ hgap hk ih =>
    obtain ⟨s₁, hrun₁, h₁⟩ := ih (hgap.head (text ++ rest))
    have hstart₁ := h₁.lineStart.trans hs
    have hnesting₁ : s₁.nesting = openBrackets ks := by
      rw [h₁.nesting, hnesting, openBrackets_eq]
    obtain ⟨s₂, hrun₂, h₂⟩ := run_gap hstart₁ hnesting₁ hgap (text ++ rest)
    obtain ⟨s', hrun, h'⟩ := run_lexeme (h₂.lineStart.trans hstart₁) hk (hrest (by simp))
    refine ⟨s', ?_, h₁.trans (h₂.trans h')⟩
    rw [List.append_assoc, List.append_assoc, hrun₁, hrun₂, hrun]

/-- The first line of a text opens no block, if no blank stands before its tokens. -/
theorem run_start_spaced {ks : List Kind} (h : Spaced ks text)
    (hrest : ks ≠ [] → rest.head?.all breaksOff = true)
    (hplain : ∃ c r, text ++ rest = c :: r ∧ isPlain c = true) :
    ∃ s : Scanner, start.run (text ++ rest) = s.run rest ∧ s.lineStart = false ∧ s.levels = [] ∧
      s.nesting = openBrackets ks ∧ kinds s.emitted = ks.reverse := by
  obtain ⟨c, r, heq, hc⟩ := hplain
  have hstart : start.AtLine 0 [] := ⟨rfl, rfl, rfl, rfl, nofun⟩
  obtain ⟨s₁, hrun₁, hstart₁, hlevels₁, hnesting₁, hemitted₁⟩ :=
    @run_indentation _ 0 0 _ r _ hstart (Nat.zero_le _) hc
  obtain ⟨s, hrun, hadvances⟩ := run_spaced hstart₁ hnesting₁ h hrest
  refine ⟨s, ?_, hadvances.lineStart.trans hstart₁, hadvances.levels.trans hlevels₁, ?_, ?_⟩
  · rw [← hrun, heq]
    exact hrun₁
  · rw [hadvances.nesting, hnesting₁, openBrackets_eq]
  · rw [hadvances.emitted, hemitted₁]
    exact List.append_nil _

/-- The tokens once a text of one line has ended. -/
theorem kinds_finish {ks : List Kind} (hlevels : s.levels = [])
    (hemitted : kinds s.emitted = ks.reverse) (hks : ∀ k ∈ ks, k ≠ .newline) :
    kinds s.finish = ks ++ if ks = [] then [.eof] else [.newline, .eof] := by
  have hlength : s.breakLine.levels.length = 0 := by
    rw [levels_breakLine, hlevels, List.length_nil]
  have hfinish : kinds s.finish = (kinds s.breakLine.emitted).reverse ++ [.eof] := by
    rw [finish, hlength, kinds, kinds, List.map_reverse]
    exact List.reverse_cons
  rw [hfinish]
  cases heq : s.emitted with
  | nil =>
    rw [heq] at hemitted
    obtain rfl : ks = [] := List.reverse_eq_nil_iff.mp hemitted.symm
    have hbreak : s.breakLine = s := by
      rw [breakLine, heq]
    rw [hbreak, heq]
    rfl
  | cons t more =>
    have hmem : t.kind ∈ ks := by
      rw [← List.mem_reverse, ← hemitted, heq]
      exact List.mem_cons_self
    have hbreak : s.breakLine = s.push .newline := by
      rw [breakLine, heq]
      exact if_neg (hks _ hmem)
    rw [hbreak, kinds_push, hemitted, if_neg (List.ne_nil_of_mem hmem)]
    simp

end Scanner

/-! ## Integers that are too large -/

/-- An integer literal above the largest integer, and the text after it. -/
structure Oversized (digits rest : List Char) : Prop where
  nonempty : digits ≠ []
  allDigits : digits.all Char.isDigit = true
  value : maxInteger < Double.digitsValue digits
  ended : rest.head?.all (fun c => !c.isDigit && c ≠ '.') = true

theorem Oversized.head {digits rest : List Char} (h : Oversized digits rest) :
    ∃ c r, digits ++ rest = c :: r ∧ isPlain c = true := by
  have hdigits := h.allDigits
  cases digits with
  | nil => exact absurd rfl h.nonempty
  | cons d digits =>
    rw [List.all_cons, Bool.and_eq_true] at hdigits
    exact ⟨d, _, rfl, isPlain_of_isDigit hdigits.1⟩

/-- Wherever the scanner comes to such a literal, it fails. -/
theorem Scanner.run_oversized {s s' : Scanner} {cs digits rest : List Char}
    (h : Oversized digits rest) (hlayout : s.layout cs = .ok s')
    (hcs : s.afterBlanks cs = digits ++ rest) :
    s.run cs = .error ⟨.invalidNumber (String.ofList digits), s'.pos, digits ++ rest⟩ := by
  obtain ⟨c, r, heq, hread⟩ := readPiece_digits h.nonempty h.allDigits rest
  rw [readNumber_digits h.allDigits h.ended, if_neg (Nat.not_le.mpr h.value)] at hread
  have hne : cs ≠ [] := by
    rintro rfl
    have hle := s.length_afterBlanks []
    rw [hcs, heq] at hle
    cases hle
  have hstep : s.step cs =
      .error ⟨.invalidNumber (String.ofList digits), s'.pos, digits ++ rest⟩ := by
    rw [step_eq_error_iff]
    exact .inr ⟨s', c, r, _, hlayout, hcs.trans heq, hread, by rw [heq]⟩
  rw [run_eq_of_step s hne, hstep]

/-! ## Whole texts -/

theorem Spaced.ne_newline {ks : List Kind} {text : List Char} (h : Spaced ks text) :
    ∀ k ∈ ks, k ≠ .newline := by
  induction h with
  | nil => exact List.forall_mem_nil _
  | snoc _ _ hk ih =>
    intro k hmem
    obtain hmem | hmem := List.mem_append.mp hmem
    · exact ih k hmem
    · obtain rfl := List.mem_singleton.mp hmem
      rintro rfl
      cases hk.isLayout

theorem scan_spaced {ks : List Kind} {text : List Char} (h : Spaced ks text) :
    ∃ ts, scan (String.ofList text) = .ok ts ∧
      kinds ts = ks ++ if ks = [] then [.eof] else [.newline, .eof] := by
  obtain ⟨s, hrun, hlevels, hemitted⟩ : ∃ s : Scanner, Scanner.start.run text = .ok s ∧
      s.levels = [] ∧ kinds s.emitted = ks.reverse := by
    obtain ⟨rfl, rfl⟩ | ⟨c, r, heq, hc⟩ := h.head
    · exact ⟨.start, Scanner.run_nil _, rfl, rfl⟩
    · rw [← List.append_nil text] at heq
      obtain ⟨s, hrun, -, hlevels, -, hemitted⟩ :=
        Scanner.run_start_spaced h (fun _ => rfl) ⟨c, r, heq, hc⟩
      rw [List.append_nil, Scanner.run_nil] at hrun
      exact ⟨s, hrun, hlevels, hemitted⟩
  refine ⟨s.finish, ?_, Scanner.kinds_finish hlevels hemitted h.ne_newline⟩
  rw [scan, String.toList_ofList, hrun]
  rfl

theorem scan_spaced_oversized {ks : List Kind} {front gap digits rest : List Char}
    (hfront : Spaced ks front) (hgap : Gap ks gap) (h : Oversized digits rest) :
    ∃ pos, scan (String.ofList (front ++ (gap ++ (digits ++ rest)))) =
      .error ⟨.invalidNumber (String.ofList digits), pos, digits ++ rest⟩ := by
  have hplain : ∃ c r, front ++ (gap ++ (digits ++ rest)) = c :: r ∧ isPlain c = true := by
    obtain ⟨rfl, rfl⟩ | ⟨c, r, rfl, hc⟩ := hfront.head
    · obtain ⟨-, rfl⟩ | ⟨hne, -⟩ := hgap
      · exact h.head
      · exact absurd rfl hne
    · exact ⟨c, _, rfl, hc⟩
  obtain ⟨s, hrun, hstart, -, hnesting, -⟩ :=
    Scanner.run_start_spaced hfront (hgap.head (digits ++ rest)) hplain
  obtain ⟨s', hrun', hadvances⟩ := Scanner.run_gap hstart hnesting hgap (digits ++ rest)
  have hstart' := hadvances.lineStart.trans hstart
  have hlayout : s'.layout (digits ++ rest) = .ok s' := by
    rw [Scanner.layout, hstart', if_neg Bool.false_ne_true]
  have hafter : s'.afterBlanks (digits ++ rest) = digits ++ rest := by
    rw [Scanner.afterBlanks, hstart', if_neg Bool.false_ne_true]
  refine ⟨s'.pos, ?_⟩
  rw [scan, String.toList_ofList, hrun, hrun', Scanner.run_oversized h hlayout hafter]
  rfl

/-- Every list of tokens with spellings can be spelled, and scanning gives its kinds back, whatever
stands between them. An integer that is too large is a failure: after such tokens, and wherever else
the scan comes to one. -/
theorem scan_undoes_spelling :
    (∀ ks : List Kind, (∀ k ∈ ks, k.isSpellable = true) → ∃ text, Spaced ks text) ∧
    (∀ ks text, Spaced ks text → ∃ ts, scan (String.ofList text) = .ok ts ∧
      kinds ts = ks ++ if ks = [] then [.eof] else [.newline, .eof]) ∧
    ∀ digits rest, Oversized digits rest →
      (∀ ks front gap, Spaced ks front → Gap ks gap →
        ∃ pos, scan (String.ofList (front ++ (gap ++ (digits ++ rest)))) =
          .error ⟨.invalidNumber (String.ofList digits), pos, digits ++ rest⟩) ∧
      ∀ n source s s' cs, Scanner.Steps n .start (String.toList source) s cs →
        s.layout cs = .ok s' → s.afterBlanks cs = digits ++ rest →
        scan source = .error ⟨.invalidNumber (String.ofList digits), s'.pos, digits ++ rest⟩ := by
  refine ⟨fun ks hks => exists_spaced hks, fun ks text htext => scan_spaced htext, ?_⟩
  intro digits rest hlarge
  constructor
  · intro ks front gap hfront hgap
    exact scan_spaced_oversized hfront hgap hlarge
  · intro n source s s' cs hsteps hlayout hcs
    rw [scan, hsteps.run_eq, Scanner.run_oversized hlarge hlayout hcs]
    rfl

/-- A list of strings in both quotes over several lines, a joint, and two words after it. -/
def quotedList : List Char := "[ # both quotes\n\t\"it's\" ,\n'\\''\n] \\\n\x0c// if iffy".toList

def quotedListKinds : List Kind :=
  [.symbol .openSquare, .str "it's", .symbol .comma, .str "\\'", .symbol .closeSquare,
    .symbol .doubleSlash, .keyword .if_, .ident "iffy"]

/-- The tokens of that text stand alone, and no integer above the largest may follow them. -/
theorem scan_undoes_spelling_quotedList :
    Spaced quotedListKinds quotedList ∧
      (∃ ts, scan (String.ofList quotedList) = .ok ts ∧
        kinds ts = quotedListKinds ++ [.newline, .eof]) ∧
      ∃ pos, scan (String.ofList (quotedList ++ ([' '] ++ ("9223372036854775808".toList ++ [])))) =
        .error ⟨.invalidNumber (String.ofList "9223372036854775808".toList), pos,
          "9223372036854775808".toList ++ []⟩ := by
  have blank : ∀ depth, Separator depth [' '] := fun _ => .single (.blank (.inl rfl))
  have hspaced := Spaced.nil
    |>.snoc (.inl ⟨rfl, rfl⟩) (.fixed (k := .symbol .openSquare) rfl)
    |>.snoc (.inr ⟨by decide, .more (.blank (.inl rfl)) (.more
        (@Filler.comment _ " both quotes".toList (by decide) (by decide +kernel))
        (.single (.blank (.inr (.inl rfl)))))⟩) (.str (s := "it's") (.inl rfl) (by decide +kernel))
    |>.snoc (.inr ⟨by decide, blank _⟩) (.fixed (k := .symbol .comma) rfl)
    |>.snoc (.inr ⟨by decide, .single (.newline (by decide))⟩)
        (.str (s := "\\'") (.inr rfl) (by decide +kernel))
    |>.snoc (.inr ⟨by decide, .single (.newline (by decide))⟩)
      (.fixed (k := .symbol .closeSquare) rfl)
    |>.snoc (.inr ⟨by decide, .more (.blank (.inl rfl)) (.more .joint
        (.single (.blank (.inr (.inr rfl)))))⟩) (.fixed (k := .symbol .doubleSlash) rfl)
    |>.snoc (.inr ⟨by decide, blank _⟩) (.fixed (k := .keyword .if_) rfl)
    |>.snoc (.inr ⟨by decide, blank _⟩) (@Kind.SpelledAs.ident "iffy" (by decide +kernel))
  obtain ⟨text, hspaced, rfl⟩ : ∃ text, Spaced quotedListKinds text ∧ text = quotedList :=
    ⟨_, hspaced, by decide +kernel⟩
  have hlarge : Oversized "9223372036854775808".toList [] :=
    ⟨by decide +kernel, by decide +kernel, by decide +kernel, rfl⟩
  exact ⟨hspaced, scan_undoes_spelling.2.1 _ _ hspaced,
    (scan_undoes_spelling.2.2 _ _ hlarge).1 _ _ _ hspaced (.inr ⟨by decide, blank _⟩)⟩

end Braces
