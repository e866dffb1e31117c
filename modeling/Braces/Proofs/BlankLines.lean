import Braces.Proofs.Scanning.InStep

/-!
# Blank lines

A line of blanks, with a comment on it or not, makes no token and opens or closes no block, wherever
it stands between two logical lines. Everything after it only stands one line further down.
-/

namespace Braces

/-! ## One line further down -/

def Pos.down (p : Pos) : Pos := ⟨p.line + 1, p.column⟩

def Token.down (t : Token) : Token := ⟨t.kind, t.pos.down⟩

theorem Pos.after_down (p : Pos) (cs : List Char) : p.down.after cs = (p.after cs).down := by
  induction cs generalizing p with
  | nil => rfl
  | cons c cs ih =>
    have hnext : p.down.next c = (p.next c).down := by
      unfold Pos.next
      split <;> rfl
    rw [Pos.after, List.foldl_cons, hnext]
    exact ih (p.next c)

/-- The second scanner is one line further down on the same text, since the given tokens were
found. -/
def lowered (before : List Token) : Pairing where
  pos p p' := p' = p.down
  tokens ts ts' := ∃ later, ts = later ++ before ∧ ts' = later.map Token.down ++ before
  text cs cs' := cs = cs'
  after cs h := by rw [h, Pos.after_down]
  push k hpos htokens := by
    obtain ⟨later, rfl, rfl⟩ := htokens
    exact ⟨⟨k, _⟩ :: later, rfl, by rw [hpos]; rfl⟩
  kinds h := by
    obtain ⟨later, rfl, rfl⟩ := h
    simp [kinds, Token.down]
  blanks h := by rw [h]
  unindented h := by rw [h]
  blankLine h := by rw [h]

namespace Scanner

variable {s s' : Scanner} {before : List Token} {cs : List Char}

/-- On the same text scanners stay in step, or fail at the same piece. -/
theorem InStep.run_lowered {s s' : Scanner} (h : InStep (lowered before) s s') (cs : List Char) :
    Agree (lowered before) (s.run cs) (s'.run cs) := by
  by_cases hcs : cs = []
  · subst hcs
    rw [run_nil, run_nil]
    exact .ok h
  have hrest : s.afterBlanks cs = s'.afterBlanks cs := h.afterBlanks rfl
  have hlayout : Agree (lowered before) (s.layout cs) (s'.layout cs) := h.layout rfl
  generalize ho : s.layout cs = o at hlayout
  generalize ho' : s'.layout cs = o' at hlayout
  cases hlayout with
  | error hpos htext =>
    rw [run_of_layout_error hcs ho, run_of_layout_error hcs ho']
    exact .error hpos htext
  | @ok s₁ s₁' h₁ =>
    have hlength := s.length_afterBlanks cs
    have hstart := lineStart_of_layout ho
    have hstart' := lineStart_of_layout ho'
    rw [run_of_layout hcs ho, run_of_layout hcs ho', ← hrest]
    cases hpiece : s.afterBlanks cs with
    | nil =>
      rw [run_nil, run_nil]
      exact .ok h₁
    | cons c r =>
      cases hp : readPiece c r with
      | error fault =>
        rw [run_piece_error hstart hp, run_piece_error hstart' hp]
        exact .error h₁.pos rfl
      | ok result =>
        obtain ⟨p, rest⟩ := result
        have hshorter := readPiece_length hp
        rw [run_piece hstart hp, run_piece hstart' hp]
        exact (h₁.take p).run_lowered rest
termination_by cs.length
decreasing_by
  rw [hpiece] at hlength
  omega

/-! ## The blank line -/

/-- What holds of the scanner where a line starts. -/
structure AtLineStart (s : Scanner) : Prop where
  nesting : s.nesting = 0
  column : s.pos.column = 1
  fresh : (kinds s.emitted).head?.all (· = .newline) = true

theorem take_atLineStart {p : Piece} (hs : s.lineStart = false) (h : (s.take p).lineStart = true) :
    (s.take p).AtLineStart := by
  obtain rfl := eq_newline_of_lineStart hs h
  have hnesting : s.nesting = 0 := of_decide_eq_true h
  have hbroken : (s.take .newline).emitted = s.breakLine.emitted := by simp [Scanner.take, hnesting]
  refine ⟨?_, rfl, ?_⟩
  · obtain heq | heq := s.breakLine_cases <;> simp [Scanner.take, hnesting, heq, push]
  · rw [hbroken]
    exact s.head?_breakLine

theorem atLineStart_of_run (h : s.run cs = .ok s') (hs : s.lineStart = true → s.AtLineStart)
    (hstart : s'.lineStart = true) : s'.AtLineStart := by
  fun_induction run s cs with
  | case1 s =>
    cases h
    exact hs hstart
  | case2 => cases h
  | case3 s cs hcs s₁ r₁ hstep _ ih =>
    refine ih h fun hline => ?_
    obtain ⟨s₂, hlayout, ⟨-, rfl, -⟩ | ⟨c, r, p, -, -, rfl⟩⟩ := step_eq_ok_iff.1 hstep
    · rw [lineStart_of_layout hlayout] at hline
      cases hline
    · exact take_atLineStart (lineStart_of_layout hlayout) hline

end Scanner

/-- A line of blanks, with a comment on it or not. -/
inductive BlankLine : List Char → Prop
  | bare {blanks : List Char} :
      blanks.all Scanner.isIndentation = true → BlankLine (blanks ++ ['\n'])
  | comment {blanks body : List Char} : blanks.all Scanner.isIndentation = true → '\n' ∉ body →
      BlankLine (blanks ++ '#' :: (body ++ ['\n']))

namespace Scanner

variable {s : Scanner} {w : List Char}

/-- Where nothing was found since the last line, a newline only starts another one. -/
theorem take_newline (hnesting : s.nesting = 0)
    (hfresh : (kinds s.emitted).head?.all (· = .newline) = true) :
    s.take .newline = { s with pos := ⟨s.pos.line + 1, 1⟩, lineStart := true } := by
  unfold Scanner.take
  simp only [hnesting, breakLine_eq, hfresh, if_true, decide_true]
  rfl

theorem newline_notMem_of_isIndentation {blanks : List Char} (h : blanks.all isIndentation = true) :
    '\n' ∉ blanks := by
  intro hmem
  have hblank := List.all_eq_true.1 h _ hmem
  revert hblank
  decide

/-- Blanks before the end of a line or before a comment do not count as an indentation. -/
theorem run_blanks {blanks : List Char} (hs : s.lineStart = true)
    (h : blanks.all isIndentation = true) {c : Char} (hc : c = '\n' ∨ c = '#') (r : List Char) :
    s.run (blanks ++ c :: r) =
      { s with pos := s.pos.after blanks, lineStart := false }.run (c :: r) := by
  have hstop : (c :: r).head?.all (!isIndentation ·) = true ∧ startsBlankLine (c :: r) = true := by
    obtain rfl | rfl := hc <;> exact ⟨rfl, rfl⟩
  obtain ⟨htake, hdrop⟩ := Cpp.takeWhile_append_of_all h hstop.1
  have hlayout : s.layout (blanks ++ c :: r) =
      .ok { s with pos := s.pos.after blanks, lineStart := false } := by
    simp only [layout, hs, if_true, htake, hdrop, hstop.2]
  have hafter : s.afterBlanks (blanks ++ c :: r) = c :: r := by
    rw [afterBlanks, if_pos hs, hdrop]
  rw [run_of_layout (by simp) hlayout, hafter]

/-- A blank line leads down by a line, and to nothing else. -/
theorem AtLineStart.run_blankLine (h : s.AtLineStart) (hs : s.lineStart = true) (hw : BlankLine w)
    (b : List Char) : s.run (w ++ b) = { s with pos := s.pos.down }.run b := by
  -- What stands before the newline has not led to another line.
  have hends : ∀ cs, '\n' ∉ cs →
      { s with pos := s.pos.after cs, lineStart := false }.run ('\n' :: b) =
        { s with pos := s.pos.down }.run b := by
    intro cs hcs
    have hline : (s.pos.after cs).line = s.pos.line := by
      rw [Pos.line_after, List.count_eq_zero_of_not_mem hcs, Nat.add_zero]
    have htake :=
      take_newline (s := { s with pos := s.pos.after cs, lineStart := false }) h.nesting h.fresh
    have hdown : s.pos.down = ⟨s.pos.line + 1, 1⟩ := by rw [Pos.down, h.column]
    rw [run_piece rfl rfl, htake, hdown, ← hline, hs]
  cases hw with
  | @bare blanks hblanks =>
    rw [List.append_assoc, List.singleton_append, run_blanks hs hblanks (.inl rfl)]
    exact hends blanks (newline_notMem_of_isIndentation hblanks)
  | @comment blanks body hblanks hbody =>
    have hnewline : '\n' ∉ blanks ++ '#' :: body := by
      have hblanks := newline_notMem_of_isIndentation hblanks
      simp [hblanks, hbody]
    have hread := @readPiece_comment body ('\n' :: b) hbody rfl
    rw [List.append_assoc, List.cons_append, List.append_assoc, List.singleton_append,
      run_blanks hs hblanks (.inr rfl), run_piece rfl hread, ← hends _ hnewline, Pos.after_append]
    rfl

/-- What is unread when a run fails is an end of its text. -/
theorem unread_of_run {cs : List Char} {e : ScanError} (h : s.run cs = .error e) :
    e.unread <:+ cs := by
  fun_induction run s cs with
  | case1 => cases h
  | case2 s cs hcs e' hstep =>
    cases h
    obtain hlayout | ⟨s₁, c, r, fault, -, hrest, -, rfl⟩ := step_eq_error_iff.1 hstep
    · obtain ⟨-, -, rfl⟩ := error_of_layout hlayout
      exact List.dropWhile_suffix _
    · have hsuffix := s.suffix_afterBlanks cs
      rwa [hrest] at hsuffix
  | case3 s cs hcs s₁ r₁ hstep _ ih => exact (ih h).trans (suffix_of_step hstep)

end Scanner

/-- The tokens after the first ones stand one line further down, or the fault in the given text
does. -/
inductive Lowered (before : List Token) (text : List Char) :
    Except ScanError (List Token) → Except ScanError (List Token) → Prop
  | tokens (later : List Token) :
      Lowered before text (.ok (before ++ later)) (.ok (before ++ later.map Token.down))
  | fault {e : ScanError} : e.unread <:+ text →
      Lowered before text (.error e) (.error { e with pos := e.pos.down })

/-- A blank line may be put in wherever a logical line starts. The tokens that the scanner had found
there stay the same, and the others, or the fault that it finds later, are the same one line further
down. -/
theorem scan_blankLine {a w : String} {s : Scanner} (ha : Scanner.start.run a.toList = .ok s)
    (hs : s.lineStart = true) (hw : BlankLine w.toList) (b : String) :
    Lowered s.emitted.reverse b.toList (scan (a ++ b)) (scan (a ++ w ++ b)) := by
  have hat : s.AtLineStart := Scanner.atLineStart_of_run ha (fun _ => ⟨rfl, rfl, rfl⟩) hs
  have hstep : Scanner.InStep (lowered s.emitted) s { s with pos := s.pos.down } :=
    ⟨rfl, ⟨[], rfl, rfl⟩, rfl, rfl, rfl⟩
  have hagree := hstep.run_lowered b.toList
  rw [scan, scan, String.toList_append, String.toList_append, String.toList_append,
    List.append_assoc, Scanner.run_append ha hs, Scanner.run_append ha hs, hat.run_blankLine hs hw]
  generalize ho : s.run b.toList = o at hagree
  generalize { s with pos := s.pos.down }.run b.toList = o' at hagree
  cases hagree with
  | @error fault p p' cs cs' hpos htext =>
    obtain rfl := hpos
    obtain rfl := htext
    exact .fault (Scanner.unread_of_run ho)
  | @ok s₁ s₁' h₁ =>
    obtain ⟨later, htokens, htokens'⟩ := h₁.finish
    have hfinish : s₁.finish = s.emitted.reverse ++ later.reverse := by
      rw [← List.reverse_append, ← htokens, List.reverse_reverse]
    have hfinish' : s₁'.finish = s.emitted.reverse ++ later.reverse.map Token.down := by
      rw [List.map_reverse, ← List.reverse_append, ← htokens', List.reverse_reverse]
    change Lowered _ _ (.ok s₁.finish) (.ok s₁'.finish)
    rw [hfinish, hfinish']
    exact .tokens later.reverse

/-- A comment that is indented less than the block before it, and more than the line after it, which
closes two blocks at once. -/
theorem scan_blankLine_beforeDedents :
    ∃ s, Scanner.start.run "if a:\n  if b:\n\tc\n".toList = .ok s ∧ s.lineStart = true ∧
      s.levels = [8, 2] ∧ BlankLine " \x0c #\td\n".toList ∧
      Lowered s.emitted.reverse "e".toList (scan ("if a:\n  if b:\n\tc\n" ++ "e"))
        (scan ("if a:\n  if b:\n\tc\n" ++ " \x0c #\td\n" ++ "e")) := by
  have hrun : (Scanner.start.run "if a:\n  if b:\n\tc\n".toList).toOption.map
      (fun s => (s.lineStart, s.levels)) = some (true, [8, 2]) := by decide +kernel
  cases ha : Scanner.start.run "if a:\n  if b:\n\tc\n".toList with
  | error e =>
    rw [ha] at hrun
    cases hrun
  | ok s =>
    rw [ha] at hrun
    obtain ⟨hs, hlevels⟩ := Prod.mk.inj (Option.some.inj hrun)
    have hw : BlankLine " \x0c #\td\n".toList :=
      @BlankLine.comment [' ', '\x0c', ' '] ['\t', 'd'] rfl (by decide)
    exact ⟨s, rfl, hs, hlevels, hw, scan_blankLine ha hs hw "e"⟩

end Braces
