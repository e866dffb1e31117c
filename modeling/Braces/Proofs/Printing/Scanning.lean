import Braces.Proofs.Printing.Pieces
import Braces.Token.Scan

/-!
# Scanning lines

The scanner finds the tokens of a line whose pieces can be read one after another, and between lines
it opens and closes blocks as their depths say.
-/

namespace Braces

/-! ## Tokens of a line -/

namespace Scanner

/-- From one state to another within a line, by tokens of some kinds. -/
structure Advances (s s' : Scanner) (ks : List Kind) : Prop where
  lineStart : s'.lineStart = s.lineStart
  levels : s'.levels = s.levels
  nesting : s'.nesting = ks.foldl nestingAfter s.nesting
  emitted : kinds s'.emitted = ks.reverse ++ kinds s.emitted

variable {s s' s'' : Scanner} {ks ks' : List Kind}

theorem Advances.refl (s : Scanner) : s.Advances s [] := ⟨rfl, rfl, rfl, rfl⟩

theorem Advances.trans (h : s.Advances s' ks) (h' : s'.Advances s'' ks') :
    s.Advances s'' (ks ++ ks') := by
  refine ⟨h'.lineStart.trans h.lineStart, h'.levels.trans h.levels, ?_, ?_⟩
  · rw [h'.nesting, h.nesting, List.foldl_append]
  · rw [h'.emitted, h.emitted, List.reverse_append, List.append_assoc]

theorem advances_take {p : Piece} (hp : p.Proper) (s : Scanner) :
    s.Advances (s.take p) p.kind?.toList := by
  cases hp <;> exact ⟨rfl, rfl, rfl, rfl⟩

/-- The scanner goes on after one step, if there is one. -/
theorem run_eq_of_step (s : Scanner) {cs : List Char} (hcs : cs ≠ []) :
    s.run cs = match s.step cs with
      | .error e => .error e
      | .ok (s', rest) => s'.run rest := by
  rw [run, dif_neg hcs]
  split <;> simp_all

theorem run_piece {p : Piece} {c : Char} {r rest : List Char} (hs : s.lineStart = false)
    (h : readPiece c r = .ok (p, rest)) : s.run (c :: r) = (s.take p).run rest := by
  rw [run_eq_of_step s (List.cons_ne_nil c r)]
  simp [step, layout, afterBlanks, hs, h]

/-- All pieces are taken over, one by one. -/
theorem run_readable {ps : List Piece} {rest : List Char} (hs : s.lineStart = false)
    (h : Piece.Readable ps rest) :
    ∃ s', s.run (Piece.texts ps ++ rest) = s'.run rest ∧ s.Advances s' (Piece.lexemes ps) := by
  induction ps generalizing s with
  | nil => exact ⟨s, rfl, .refl s⟩
  | cons p ps ih =>
    obtain ⟨hp, hends, hps⟩ := h
    obtain ⟨c, r, heq, hread⟩ := hp.reads hends
    have htake := advances_take hp s
    obtain ⟨s', hrun, hadvances⟩ := ih (htake.lineStart.trans hs) hps
    refine ⟨s', ?_, ?_⟩
    · rw [Piece.texts_cons, List.append_assoc]
      exact (congrArg s.run heq).trans ((run_piece hs hread).trans hrun)
    · rw [Piece.lexemes_cons]
      exact htake.trans hadvances

/-! ## Blocks -/

/-- The widths of the open indentations at a depth. -/
def openLevels : Nat → List Nat
  | 0 => []
  | d + 1 => 4 * (d + 1) :: openLevels d

/-- The layout tokens before a line of some depth. -/
def entering (current depth : Nat) : List Kind :=
  if current < depth then [.indent] else List.replicate (current - depth) .dedent

/-- Whether the scanner stands at the start of a line after lines of these tokens. -/
structure AtLine (s : Scanner) (depth : Nat) (ks : List Kind) : Prop where
  lineStart : s.lineStart = true
  levels : s.levels = openLevels depth
  nesting : s.nesting = 0
  emitted : kinds s.emitted = ks.reverse
  ended : ∀ t more, s.emitted = t :: more → t.kind = .newline

theorem level_openLevels (d : Nat) : (openLevels d).headD 0 = 4 * d := by
  cases d <;> rfl

theorem takeWhile_openLevels {d : Nat} (n : Nat) :
    (openLevels (d + n)).takeWhile (4 * d < ·) = (openLevels (d + n)).take n := by
  induction n with
  | zero => cases d <;> simp [openLevels]
  | succ n ih =>
    change (4 * (d + n + 1) :: openLevels (d + n)).takeWhile (4 * d < ·) = _
    rw [List.takeWhile_cons, if_pos (decide_eq_true (by omega)), ih]
    rfl

theorem drop_openLevels (d n : Nat) : (openLevels (d + n)).drop n = openLevels d := by
  induction n with
  | zero => rfl
  | succ n ih => exact ih

theorem length_openLevels (d : Nat) : (openLevels d).length = d := by
  induction d with
  | zero => rfl
  | succ d ih => rw [openLevels, List.length_cons, ih]

/-- Closing blocks. -/
theorem close_eq (n : Nat) (s : Scanner) :
    (close n s).levels = s.levels.drop n ∧ (close n s).nesting = s.nesting ∧
      (close n s).lineStart = s.lineStart ∧
      kinds (close n s).emitted = List.replicate n .dedent ++ kinds s.emitted := by
  induction n generalizing s with
  | zero => exact ⟨rfl, rfl, rfl, rfl⟩
  | succ n ih =>
    obtain ⟨hlevels, hnesting, hlineStart, hemitted⟩ :=
      ih { s.push .dedent with levels := s.levels.tail }
    refine ⟨?_, hnesting, hlineStart, ?_⟩
    · rw [close, hlevels, List.drop_tail]
    · rw [close, hemitted, List.replicate_succ', List.append_assoc]
      rfl

theorem kinds_push (s : Scanner) (k : Kind) : kinds (s.push k).emitted = k :: kinds s.emitted := rfl

/-- The indentation of a line opens or closes blocks. -/
theorem indentTo_openLevels {current depth : Nat} (hlevels : s.levels = openLevels current)
    (hle : depth ≤ current + 1) (rest : List Char) :
    ∃ s', s.indentTo (4 * depth) rest = .ok s' ∧ s'.lineStart = s.lineStart ∧
      s'.levels = openLevels depth ∧ s'.nesting = s.nesting ∧
      kinds s'.emitted = (entering current depth).reverse ++ kinds s.emitted := by
  have hlevel : s.level = 4 * current := by
    rw [level, hlevels, level_openLevels]
  unfold indentTo entering
  by_cases hlt : current < depth
  · obtain rfl : depth = current + 1 := by omega
    rw [if_pos (by omega), if_pos hlt]
    refine ⟨_, rfl, rfl, ?_, rfl, rfl⟩
    rw [openLevels, ← hlevels]
  · obtain ⟨n, rfl⟩ := Nat.exists_eq_add_of_le (Nat.le_of_not_lt hlt)
    have hexcess : s.excess (4 * depth) = n := by
      rw [excess, hlevels, takeWhile_openLevels, List.length_take, length_openLevels]
      omega
    obtain ⟨hclosed, hnesting, hlineStart, hemitted⟩ := close_eq n s
    rw [hlevels, drop_openLevels] at hclosed
    have hlevel' : (close n s).level = 4 * depth := by
      rw [level, hclosed, level_openLevels]
    rw [if_neg (by omega), hexcess, if_pos hlevel', if_neg hlt, Nat.add_sub_cancel_left,
      List.reverse_replicate]
    exact ⟨_, rfl, hlineStart, hclosed, hnesting, hemitted⟩

theorem indentationWidth_replicate (n : Nat) :
    indentationWidth (List.replicate n ' ') = n := by
  have hfold : ∀ width, (List.replicate n ' ').foldl widen width = width + n := by
    induction n with
    | zero => exact fun _ => rfl
    | succ n ih =>
      intro width
      rw [List.replicate_succ, List.foldl_cons, ih]
      simp only [widen]
      split
      · next h => cases h
      · split
        · next h => cases h
        · omega
  exact (hfold 0).trans (Nat.zero_add n)

/-- Reading the indentation of a line. -/
theorem run_indentation {current depth : Nat} {c : Char} {r : List Char} {ks : List Kind}
    (h : s.AtLine current ks) (hle : depth ≤ current + 1) (hc : isPlain c = true) :
    ∃ s' : Scanner, s.run (List.replicate (4 * depth) ' ' ++ c :: r) = s'.run (c :: r) ∧
      s'.lineStart = false ∧ s'.levels = openLevels depth ∧ s'.nesting = 0 ∧
      kinds s'.emitted = (ks ++ entering current depth).reverse := by
  have hindentation : isIndentation c = false := by
    simp only [isPlain, decide_eq_true_eq] at hc
    simp_all [isIndentation]
  obtain ⟨htake, hdrop⟩ := @Cpp.takeWhile_append_of_all isIndentation
    (List.replicate (4 * depth) ' ') (c :: r) (by simp [isIndentation]) (by simp [hindentation])
  have hblank : startsBlankLine (c :: r) = false := by
    simp only [isPlain, decide_eq_true_eq] at hc
    simp_all [startsBlankLine]
  obtain ⟨s', hindent, hlineStart, hlevels, hnesting, hemitted⟩ :=
    indentTo_openLevels
      (s := { s with pos := s.pos.after (List.replicate (4 * depth) ' '), lineStart := false })
      h.levels hle (c :: r)
  refine ⟨s', ?_, hlineStart, hlevels, hnesting.trans h.nesting, ?_⟩
  · have hlayout : s.layout (List.replicate (4 * depth) ' ' ++ c :: r) = .ok s' := by
      simp only [layout, h.lineStart, if_true, htake, hdrop, hblank, indentationWidth_replicate]
      exact hindent
    have hafter : s.afterBlanks (List.replicate (4 * depth) ' ' ++ c :: r) = c :: r := by
      rw [afterBlanks, h.lineStart, if_pos rfl, hdrop]
    have hlayout' : s'.layout (c :: r) = .ok s' := by
      rw [layout, hlineStart, if_neg nofun]
    have hafter' : s'.afterBlanks (c :: r) = c :: r := by
      rw [afterBlanks, hlineStart, if_neg nofun]
    rw [run_eq_of_step s (by simp), run_eq_of_step s' (List.cons_ne_nil c r), step, step, hlayout,
      hafter, hlayout', hafter']
  · rw [hemitted, List.reverse_append]
    exact congrArg _ h.emitted

end Scanner

/-! ## Lines -/

namespace Line

/-- A line whose pieces can be read, with all brackets closed. -/
structure IsWritten (l : Line) : Prop where
  readable : ∀ rest, Piece.Readable l.pieces ('\n' :: rest)
  start : ∃ c r, Piece.texts l.pieces = c :: r ∧ isPlain c = true
  tokens : Piece.lexemes l.pieces ≠ []
  balanced : (Piece.lexemes l.pieces).foldl Scanner.nestingAfter 0 = 0

/-- The tokens of lines, with those of layout. -/
def layoutKinds : Nat → List Line → List Kind
  | current, [] => List.replicate current .dedent
  | current, l :: rest =>
    Scanner.entering current l.depth ++
      (Piece.lexemes l.pieces ++ .newline :: layoutKinds l.depth rest)

/-- Lines get deeper by one block at a time. -/
def Descends : Nat → List Line → Prop
  | _, [] => True
  | current, l :: rest => l.depth ≤ current + 1 ∧ Descends l.depth rest

end Line

/-- Pieces make no tokens of layout. -/
theorem Piece.Readable.not_layout {ps : List Piece} {rest : List Char} (h : Readable ps rest) :
    ∀ k ∈ lexemes ps, k ≠ .newline ∧ k ≠ .eof := by
  induction ps with
  | nil => exact List.forall_mem_nil _
  | cons p ps ih =>
    obtain ⟨hp, -, hps⟩ := h
    intro k hk
    rw [lexemes, List.filterMap_cons] at hk
    cases hp <;> first | exact ih hps k hk | skip
    all_goals
      obtain rfl | hk := List.mem_cons.mp hk
      · constructor <;> rintro ⟨⟩
      · exact ih hps k hk

namespace Scanner

variable {s : Scanner} {current : Nat} {ks : List Kind}

theorem run_line {l : Line} (hl : l.IsWritten) (h : s.AtLine current ks)
    (hle : l.depth ≤ current + 1) (rest : List Char) :
    ∃ s' : Scanner, s.run (l.text ++ rest) = s'.run rest ∧
      s'.AtLine l.depth (ks ++ (entering current l.depth ++
        (Piece.lexemes l.pieces ++ [.newline]))) := by
  obtain ⟨c, r, htext, hc⟩ := hl.start
  obtain ⟨s₁, hrun₁, hstart₁, hlevels₁, hnesting₁, hemitted₁⟩ :=
    run_indentation (r := r ++ '\n' :: rest) h hle hc
  obtain ⟨s₂, hrun₂, hadvances⟩ := run_readable hstart₁ (hl.readable rest)
  have hnesting₂ : s₂.nesting = 0 := by
    rw [hadvances.nesting, hnesting₁, hl.balanced]
  -- The last token of the line is not a newline, so the end of the line adds one.
  obtain ⟨last, hlast⟩ : ∃ last, (Piece.lexemes l.pieces).getLast? = some last :=
    ⟨_, List.getLast?_eq_some_getLast hl.tokens⟩
  obtain ⟨front, hfront⟩ := List.getLast?_eq_some_iff.mp hlast
  have hne : last ≠ .newline :=
    ((hl.readable rest).not_layout last (hfront ▸ List.mem_append_right front List.mem_cons_self)).1
  have hemitted₂ := hadvances.emitted
  rw [hemitted₁, ← List.reverse_append] at hemitted₂
  obtain ⟨t, more, heq, rfl, -⟩ : ∃ t more, s₂.emitted = t :: more ∧ t.kind = last ∧
      kinds more = front.reverse ++ (ks ++ entering current l.depth).reverse := by
    rw [hfront, List.reverse_append, List.reverse_append] at hemitted₂
    exact List.map_eq_cons_iff.mp hemitted₂
  have hbreak : s₂.breakLine = s₂.push .newline := by
    rw [breakLine, heq]
    exact if_neg hne
  have htake : s₂.take .newline =
      { s₂.push .newline with pos := s₂.pos.after ['\n'], lineStart := true } := by
    simp only [take, hnesting₂, if_true, hbreak, decide_true]
    rfl
  refine ⟨s₂.take .newline, ?_, ?_⟩
  · rw [Line.text, htext, List.append_assoc, List.append_assoc, List.cons_append,
      List.singleton_append, hrun₁,
      ← run_piece (hadvances.lineStart.trans hstart₁) (rfl : readPiece '\n' rest = _), ← hrun₂,
      htext, List.cons_append]
  · rw [htake]
    refine ⟨rfl, hadvances.levels.trans hlevels₁, hnesting₂, ?_, ?_⟩
    · change Kind.newline :: kinds s₂.emitted = _
      rw [hemitted₂]
      simp
    · rintro _ _ ⟨⟩
      rfl

/-- The tokens of lines are theirs and those of the blocks that open and close between them. -/
theorem run_lines {lines : List Line} (hlines : ∀ l ∈ lines, l.IsWritten)
    (hdescends : Line.Descends current lines) (h : s.AtLine current ks) :
    ∃ s', s.run (lines.flatMap Line.text) = .ok s' ∧
      kinds s'.finish = ks ++ (Line.layoutKinds current lines ++ [.eof]) := by
  induction lines generalizing s current ks with
  | nil =>
    refine ⟨s, ?_, ?_⟩
    · rw [List.flatMap_nil, run, dif_pos rfl]
    · have hbreak : s.breakLine = s := by
        rw [breakLine]
        split
        · rfl
        · next t more heq => rw [if_pos (h.ended t more heq)]
      obtain ⟨-, -, -, hemitted⟩ := close_eq current s
      have hlength : s.levels.length = current := by
        rw [h.levels, length_openLevels]
      have hkinds : kinds (finish s) = (kinds ((close current s).push .eof).emitted).reverse := by
        rw [finish, hbreak, hlength, kinds, kinds, List.map_reverse]
      rw [hkinds, kinds_push, hemitted, h.emitted]
      simp [Line.layoutKinds]
  | cons l lines ih =>
    obtain ⟨hl, hlines⟩ := List.forall_mem_cons.mp hlines
    obtain ⟨hle, hdescends⟩ := hdescends
    obtain ⟨s₁, hrun₁, h₁⟩ := run_line hl h hle (lines.flatMap Line.text)
    obtain ⟨s', hrun, hkinds⟩ := ih hlines hdescends h₁
    refine ⟨s', ?_, ?_⟩
    · rw [List.flatMap_cons, hrun₁, hrun]
    · rw [hkinds, Line.layoutKinds]
      simp only [List.append_assoc, List.cons_append, List.nil_append]

end Scanner

/-- The input ends after the lines only. -/
theorem Line.eof_notMem_layoutKinds {lines : List Line} (h : ∀ l ∈ lines, l.IsWritten)
    (current : Nat) : .eof ∉ layoutKinds current lines := by
  induction lines generalizing current with
  | nil =>
    intro hmem
    cases List.eq_of_mem_replicate hmem
  | cons l lines ih =>
    obtain ⟨hl, hlines⟩ := List.forall_mem_cons.mp h
    have hentering : .eof ∉ Scanner.entering current l.depth := by
      unfold Scanner.entering
      split
      · decide
      · intro hmem
        cases List.eq_of_mem_replicate hmem
    intro hmem
    rw [layoutKinds, List.mem_append, List.mem_append, List.mem_cons] at hmem
    obtain hmem | hmem | hmem | hmem := hmem
    · exact hentering hmem
    · exact ((hl.readable []).not_layout _ hmem).2 rfl
    · cases hmem
    · exact ih hlines _ hmem

/-- Scanning the text of lines. -/
theorem scan_lines {lines : List Line} (hlines : ∀ l ∈ lines, l.IsWritten)
    (hdescends : Line.Descends 0 lines) :
    ∃ ts, scan (String.ofList (lines.flatMap Line.text)) = .ok ts ∧
      kinds ts = Line.layoutKinds 0 lines ++ [.eof] := by
  have hstart : Scanner.start.AtLine 0 [] := ⟨rfl, rfl, rfl, rfl, nofun⟩
  obtain ⟨s, hrun, hkinds⟩ := Scanner.run_lines hlines hdescends hstart
  refine ⟨s.finish, ?_, hkinds⟩
  rw [scan, String.toList_ofList, hrun]
  rfl

end Braces
