import Braces.Proofs.Scanning.Breaks

/-!
# Scanners in step

Two scanners may be at different places, on texts that are not the same, and still do the same: they
open and close the same indentations, have the same brackets open, and emit tokens of the same
kinds. How their places, tokens and texts go together is a pairing.
-/

namespace Braces

theorem Pos.line_after (p : Pos) (cs : List Char) : (p.after cs).line = p.line + cs.count '\n' := by
  induction cs generalizing p with
  | nil => rfl
  | cons c cs ih =>
    refine (ih (p.next c)).trans ?_
    rw [List.count_cons, Pos.next]
    by_cases hc : c = '\n'
    · simp [hc]
      omega
    · simp [hc]

/-- How the places, the tokens and the unread texts of two scanners go together. -/
structure Pairing where
  pos : Pos → Pos → Prop
  tokens : List Token → List Token → Prop
  text : List Char → List Char → Prop
  after : ∀ {p p'} (cs : List Char), pos p p' → pos (p.after cs) (p'.after cs)
  push : ∀ {p p' ts ts'} (k : Kind), pos p p' → tokens ts ts' →
    tokens (⟨k, p⟩ :: ts) (⟨k, p'⟩ :: ts')
  kinds : ∀ {ts ts'}, tokens ts ts' → kinds ts = kinds ts'
  blanks : ∀ {cs cs'}, text cs cs' →
    cs.takeWhile Scanner.isIndentation = cs'.takeWhile Scanner.isIndentation
  unindented : ∀ {cs cs'}, text cs cs' →
    text (cs.dropWhile Scanner.isIndentation) (cs'.dropWhile Scanner.isIndentation)
  blankLine : ∀ {cs cs'}, text cs cs' → Scanner.startsBlankLine cs = Scanner.startsBlankLine cs'

namespace Scanner

variable {C : Pairing} {s s' : Scanner} {cs cs' : List Char}

/-! ## A run goes by layout and pieces -/

/-- The layout of a line comes before its pieces. -/
theorem run_of_layout (hcs : cs ≠ []) (h : s.layout cs = .ok s') :
    s.run cs = s'.run (s.afterBlanks cs) := by
  rw [run_eq_of_step s hcs]
  cases hrest : s.afterBlanks cs with
  | nil =>
    simp only [step, h, hrest]
  | cons c r =>
    have hstart := lineStart_of_layout h
    have hlayout : s'.layout (c :: r) = .ok s' := by simp [layout, hstart]
    have hafter : s'.afterBlanks (c :: r) = c :: r := by simp [afterBlanks, hstart]
    rw [run_eq_of_step s' (List.cons_ne_nil c r)]
    simp only [step, h, hrest, hlayout, hafter]

theorem run_of_layout_error {e : ScanError} (hcs : cs ≠ []) (h : s.layout cs = .error e) :
    s.run cs = .error e := by
  rw [run_eq_of_step s hcs]
  simp only [step, h]

theorem run_piece_error {c : Char} {r : List Char} {fault : ScanFault} (hs : s.lineStart = false)
    (h : readPiece c r = .error fault) : s.run (c :: r) = .error ⟨fault, s.pos, c :: r⟩ := by
  rw [run_eq_of_step s (List.cons_ne_nil c r)]
  simp [step, layout, afterBlanks, hs, h]

theorem run_newline (hs : s.lineStart = false) (r : List Char) :
    s.run ('\n' :: r) = (s.take .newline).run r :=
  run_piece hs rfl

/-! ## In step -/

/-- The scanners differ only in places and texts, as the pairing says. -/
structure InStep (C : Pairing) (s s' : Scanner) : Prop where
  pos : C.pos s.pos s'.pos
  tokens : C.tokens s.emitted s'.emitted
  levels : s.levels = s'.levels
  nesting : s.nesting = s'.nesting
  lineStart : s.lineStart = s'.lineStart

/-- Both scanners go on in step, or both fail for the same reason. -/
inductive Agree (C : Pairing) : Except ScanError Scanner → Except ScanError Scanner → Prop
  | ok {s s' : Scanner} : InStep C s s' → Agree C (.ok s) (.ok s')
  | error {fault : ScanFault} {p p' : Pos} {cs cs' : List Char} : C.pos p p' → C.text cs cs' →
      Agree C (.error ⟨fault, p, cs⟩) (.error ⟨fault, p', cs'⟩)

theorem breakLine_eq (s : Scanner) :
    s.breakLine = if (kinds s.emitted).head?.all (· = .newline) then s else s.push .newline := by
  unfold breakLine
  cases s.emitted with
  | nil => rfl
  | cons t ts => simp [Braces.kinds]

theorem head?_breakLine (s : Scanner) :
    (kinds s.breakLine.emitted).head?.all (· = .newline) = true := by
  rw [breakLine_eq]
  split
  · assumption
  · rfl

namespace InStep

theorem push (h : InStep C s s') (k : Kind) : InStep C (s.push k) (s'.push k) :=
  ⟨h.pos, C.push k h.pos h.tokens, h.levels, h.nesting, h.lineStart⟩

theorem breakLine (h : InStep C s s') : InStep C s.breakLine s'.breakLine := by
  rw [breakLine_eq, breakLine_eq, C.kinds h.tokens]
  split
  · exact h
  · exact h.push .newline

theorem close (h : InStep C s s') (n : Nat) : InStep C (s.close n) (s'.close n) := by
  induction n generalizing s s' with
  | zero => exact h
  | succ n ih =>
    have hpush := h.push .dedent
    refine ih ⟨hpush.pos, hpush.tokens, ?_, hpush.nesting, hpush.lineStart⟩
    rw [h.levels]

theorem level (h : InStep C s s') : s.level = s'.level := by
  rw [Scanner.level, Scanner.level, h.levels]

theorem indentTo (h : InStep C s s') (width : Nat) (htext : C.text cs cs') :
    Agree C (s.indentTo width cs) (s'.indentTo width cs') := by
  have hclose : InStep C (s.close (s.excess width)) (s'.close (s'.excess width)) := by
    rw [excess, excess, h.levels]
    exact h.close _
  unfold Scanner.indentTo
  rw [h.level]
  split
  · have hpush := h.push .indent
    refine .ok ⟨hpush.pos, hpush.tokens, ?_, hpush.nesting, hpush.lineStart⟩
    rw [h.levels]
  · dsimp only
    rw [hclose.level]
    split
    · exact .ok hclose
    · exact .error hclose.pos htext

theorem layout (h : InStep C s s') (htext : C.text cs cs') :
    Agree C (s.layout cs) (s'.layout cs') := by
  unfold Scanner.layout
  rw [h.lineStart]
  split
  · have henter : InStep C
        { s with pos := s.pos.after (cs.takeWhile isIndentation), lineStart := false }
        { s' with pos := s'.pos.after (cs.takeWhile isIndentation), lineStart := false } :=
      ⟨C.after _ h.pos, h.tokens, h.levels, h.nesting, rfl⟩
    dsimp only
    rw [C.blankLine (C.unindented htext), ← C.blanks htext]
    split
    · exact .ok henter
    · exact henter.indentTo _ (C.unindented htext)
  · exact .ok h

theorem afterBlanks (h : InStep C s s') (htext : C.text cs cs') :
    C.text (s.afterBlanks cs) (s'.afterBlanks cs') := by
  unfold Scanner.afterBlanks
  rw [h.lineStart]
  split
  · exact C.unindented htext
  · exact htext

theorem take (h : InStep C s s') (p : Piece) : InStep C (s.take p) (s'.take p) := by
  cases p with
  | newline =>
    unfold Scanner.take
    dsimp only
    rw [h.nesting]
    split
    · have hbreak := h.breakLine
      exact ⟨C.after _ h.pos, hbreak.tokens, hbreak.levels, hbreak.nesting, rfl⟩
    · exact ⟨C.after _ h.pos, h.tokens, h.levels, h.nesting, rfl⟩
  | lexeme k text =>
    refine ⟨C.after _ h.pos, C.push k h.pos h.tokens, h.levels, ?_, h.lineStart⟩
    exact congrArg (nestingAfter · k) h.nesting
  | blank | comment | joint => exact ⟨C.after _ h.pos, h.tokens, h.levels, h.nesting, h.lineStart⟩

/-- The tokens of the whole text, the latest first. -/
theorem finish (h : InStep C s s') : C.tokens s.finish.reverse s'.finish.reverse := by
  have hbreak := h.breakLine
  have hclose := hbreak.close s.breakLine.levels.length
  unfold Scanner.finish
  dsimp only
  rw [List.reverse_reverse, List.reverse_reverse, ← hbreak.levels]
  exact (hclose.push .eof).tokens

end InStep

end Scanner

end Braces
