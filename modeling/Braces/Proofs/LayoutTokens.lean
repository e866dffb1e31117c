import Braces.Proofs.Scanning.Steps

/-!
# The tokens of layout

Tokens of layout nest and alternate: blocks open and close in pairs, each between lines, and no
block is closed before something stands in it. What carries this through a scan is which token may
follow which, and that the open blocks are those whose widths are on the stack.
-/

namespace Braces

/-! ## Well laid tokens -/

/-- How tokens of layout stand among the others. -/
structure WellLaid (ks : List Kind) : Prop where
  /-- The end comes last, and only there. -/
  eof : ∃ front, ks = front ++ [.eof] ∧ .eof ∉ front
  nested : ∀ front, front <+: ks → front.count .dedent ≤ front.count .indent
  balanced : ks.count .dedent = ks.count .indent
  start : ks.head? ≠ some .newline
  newlines : ¬ [.newline, .newline] <:+: ks
  indents : ∀ front rest, ks = front ++ .indent :: rest →
    front = [] ∨ front.getLast? = some .newline
  dedents : ∀ front rest, ks = front ++ .dedent :: rest →
    front.getLast? = some .newline ∨ front.getLast? = some .dedent
  opened : ∀ k, [.indent, k] <:+: ks → k ≠ .indent ∧ k ≠ .dedent ∧ k ≠ .eof

/-- Whether a kind may come after another one, or first. -/
def Kind.mayFollow (before : Option Kind) : Kind → Bool
  | .newline => before.any (· ≠ .newline)
  | .indent => before.all (· = .newline)
  | .dedent => before.any fun k => k = .newline || k = .dedent
  | .eof => before.all fun k => k = .newline || k = .dedent
  | _ => true

/-- Kinds of which each may follow the one before it, with no block closed that is not open. The
latest comes first. -/
def Orderly : List Kind → Prop
  | [] => True
  | k :: ks =>
    k.mayFollow ks.head? = true ∧ (k :: ks).count .dedent ≤ (k :: ks).count .indent ∧ Orderly ks

namespace Orderly

variable {ks before after : List Kind} {k : Kind}

theorem of_append (h : Orderly (after ++ before)) : Orderly before := by
  induction after with
  | nil => exact h
  | cons k after ih => exact ih h.2.2

theorem count_le (h : Orderly ks) : ks.count .dedent ≤ ks.count .indent := by
  cases ks with
  | nil => exact Nat.le_refl _
  | cons k ks => exact h.2.1

/-- The order of kinds, read forwards. -/
theorem mayFollow (h : Orderly ks) {front rest : List Kind}
    (heq : ks.reverse = front ++ k :: rest) :
    k.mayFollow front.getLast? = true := by
  have hks : ks = rest.reverse ++ k :: front.reverse := by
    rw [← List.reverse_reverse ks, heq]
    simp
  rw [hks] at h
  have hk := h.of_append.1
  rwa [List.head?_reverse] at hk

theorem mayFollow_of_infix (h : Orderly ks) {k' : Kind} (hpair : [k, k'] <:+: ks.reverse) :
    k'.mayFollow (some k) = true := by
  obtain ⟨front, rest, heq⟩ := hpair
  have hsplit : ks.reverse = (front ++ [k]) ++ k' :: rest := by
    rw [← heq]
    simp
  have hk := h.mayFollow hsplit
  rwa [List.getLast?_concat] at hk

/-- Orderly kinds are well laid, once the blocks are closed and the text has ended. -/
theorem wellLaid (h : Orderly (.eof :: ks)) (heof : .eof ∉ ks)
    (hcount : ks.count .dedent = ks.count .indent) : WellLaid (Kind.eof :: ks).reverse where
  eof := ⟨ks.reverse, List.reverse_cons, fun hmem => heof (List.mem_reverse.mp hmem)⟩
  nested := by
    rintro front ⟨rest, heq⟩
    have hks : Kind.eof :: ks = rest.reverse ++ front.reverse := by
      rw [← List.reverse_append, heq, List.reverse_reverse]
    rw [hks] at h
    simpa using h.of_append.count_le
  balanced := by simpa using hcount
  start := by
    intro hhead
    obtain ⟨rest, heq⟩ := List.head?_eq_some_iff.mp hhead
    have hk : Kind.newline.mayFollow ([] : List Kind).getLast? = true := h.mayFollow heq
    cases hk
  newlines := fun hpair => absurd (h.mayFollow_of_infix hpair) (by decide)
  indents := by
    intro front rest heq
    have hk := h.mayFollow heq
    cases hlast : front.getLast? with
    | none => exact .inl (List.getLast?_eq_none_iff.mp hlast)
    | some k =>
      rw [hlast] at hk
      exact .inr (congrArg some (by simpa [Kind.mayFollow] using hk))
  dedents := by
    intro front rest heq
    have hk := h.mayFollow heq
    cases hlast : front.getLast? with
    | none =>
      rw [hlast] at hk
      cases hk
    | some k =>
      rw [hlast] at hk
      simpa [Kind.mayFollow] using hk
  opened := by
    intro k hpair
    have hk := h.mayFollow_of_infix hpair
    refine ⟨?_, ?_, ?_⟩ <;> rintro rfl <;> cases hk

end Orderly

/-! ## Tokens and widths -/

/-- Orderly kinds, and the widths of the blocks that they leave open, the innermost first. -/
structure LaidOut (ks : List Kind) (levels : List Nat) : Prop where
  orderly : Orderly ks
  noEnd : .eof ∉ ks
  increasing : (0 :: levels.reverse).Pairwise (· < ·)
  opens : ks.count .indent = ks.count .dedent + levels.length

namespace LaidOut

variable {ks : List Kind} {k : Kind} {levels : List Nat} {width : Nat}

theorem nil : LaidOut [] [] := ⟨trivial, nofun, List.pairwise_singleton _ _, rfl⟩

/-- A token that opens and closes nothing. -/
theorem cons (h : LaidOut ks levels) (hfollows : k.mayFollow ks.head? = true)
    (hindent : k ≠ .indent)
    (hdedent : k ≠ .dedent) (heof : k ≠ .eof) : LaidOut (k :: ks) levels := by
  refine ⟨⟨hfollows, ?_, h.orderly⟩, ?_, h.increasing, ?_⟩
  · rw [List.count_cons_of_ne hindent, List.count_cons_of_ne hdedent]
    exact h.orderly.count_le
  · exact List.not_mem_cons_of_ne_of_not_mem heof.symm h.noEnd
  · rw [List.count_cons_of_ne hindent, List.count_cons_of_ne hdedent]
    exact h.opens

theorem newline (h : LaidOut ks levels) (hfollows : Kind.newline.mayFollow ks.head? = true) :
    LaidOut (.newline :: ks) levels :=
  h.cons hfollows (by decide) (by decide) (by decide)

/-- The innermost block is the widest. -/
theorem le_level (h : LaidOut ks levels) : ∀ w ∈ 0 :: levels.reverse, w ≤ levels.headD 0 := by
  have hincreasing := h.increasing
  cases levels with
  | nil => simp
  | cons v vs =>
    rw [List.reverse_cons, ← List.cons_append] at hincreasing ⊢
    intro w hw
    obtain hw | hw := List.mem_append.mp hw
    · exact Nat.le_of_lt ((List.pairwise_append.mp hincreasing).2.2 w hw v List.mem_cons_self)
    · exact Nat.le_of_eq (List.mem_singleton.mp hw)

/-- Opening a block that is wider than the others. -/
theorem indent (h : LaidOut ks levels) (hfollows : Kind.indent.mayFollow ks.head? = true)
    (hwidth : levels.headD 0 < width) : LaidOut (.indent :: ks) (width :: levels) := by
  have hindent : (Kind.indent :: ks).count .indent = ks.count .indent + 1 := List.count_cons_self
  have hdedent : (Kind.indent :: ks).count .dedent = ks.count .dedent :=
    List.count_cons_of_ne (by decide)
  have hcount := h.orderly.count_le
  have hopens := h.opens
  refine ⟨⟨hfollows, by omega, h.orderly⟩, ?_, ?_, ?_⟩
  · exact List.not_mem_cons_of_ne_of_not_mem (by decide) h.noEnd
  · rw [List.reverse_cons, ← List.cons_append, List.pairwise_append]
    refine ⟨h.increasing, List.pairwise_singleton _ _, fun v hv w hw => ?_⟩
    rw [List.mem_singleton.mp hw]
    exact Nat.lt_of_le_of_lt (h.le_level v hv) hwidth
  · rw [List.length_cons]
    omega

/-- Closing the innermost block, after a newline or after another block that was closed. -/
theorem dedent (h : LaidOut ks (width :: levels)) (hfollows : Kind.eof.mayFollow ks.head? = true) :
    LaidOut (.dedent :: ks) levels := by
  have hindent : (Kind.dedent :: ks).count .indent = ks.count .indent :=
    List.count_cons_of_ne (by decide)
  have hdedent : (Kind.dedent :: ks).count .dedent = ks.count .dedent + 1 := List.count_cons_self
  have hopens := h.opens
  rw [List.length_cons] at hopens
  refine ⟨⟨?_, by omega, h.orderly⟩, ?_, ?_, by omega⟩
  · -- A block is open, so there is a token before this one.
    cases ks with
    | nil => cases hopens
    | cons k ks => exact hfollows
  · exact List.not_mem_cons_of_ne_of_not_mem (by decide) h.noEnd
  · have hincreasing := h.increasing
    rw [List.reverse_cons, ← List.cons_append] at hincreasing
    exact (List.pairwise_append.mp hincreasing).1

end LaidOut

/-- After a newline the text may end. -/
theorem Kind.mayFollow_eof_of_indent {before : Option Kind}
    (h : Kind.indent.mayFollow before = true) :
    Kind.eof.mayFollow before = true := by
  cases before with
  | none => rfl
  | some k =>
    obtain rfl : k = .newline := by simpa [Kind.mayFollow] using h
    rfl

theorem LaidOut.lexeme {ks : List Kind} {levels : List Nat} {k : Kind} (h : LaidOut ks levels)
    (hk : k.isLayout = false) : LaidOut (k :: ks) levels := by
  refine h.cons ?_ ?_ ?_ ?_
  · cases k <;> first | rfl | cases hk
  all_goals
    rintro rfl
    cases hk

/-! ## The scanner -/

namespace Scanner

variable {s s' : Scanner} {cs rest : List Char}

/-- The widths of the open indentations over the margin, the outermost first. -/
def stack (s : Scanner) : List Nat := 0 :: s.levels.reverse

/-- The tokens so far are orderly, and the stack goes with them. -/
def Laid (s : Scanner) : Prop := LaidOut (kinds s.emitted) s.levels

/-- A line starts where an indentation may follow. -/
def AfterNewline (s : Scanner) : Prop :=
  s.lineStart = true → Kind.indent.mayFollow (kinds s.emitted).head? = true

theorem Laid.close {n : Nat} (h : Laid s)
    (hfollows : Kind.eof.mayFollow (kinds s.emitted).head? = true) (hn : n ≤ s.levels.length) :
    Laid (s.close n) ∧ Kind.eof.mayFollow (kinds (s.close n).emitted).head? = true := by
  induction n generalizing s with
  | zero => exact ⟨h, hfollows⟩
  | succ n ih =>
    obtain ⟨width, levels, hlevels⟩ :=
      List.exists_cons_of_ne_nil (List.ne_nil_of_length_pos (Nat.zero_lt_of_lt hn))
    rw [Laid, hlevels] at h
    rw [hlevels] at hn
    rw [Scanner.close, hlevels]
    exact ih (h.dedent hfollows) rfl (Nat.le_of_succ_le_succ hn)

theorem Laid.breakLine (h : Laid s) :
    Laid s.breakLine ∧ Kind.indent.mayFollow (kinds s.breakLine.emitted).head? = true := by
  unfold Scanner.breakLine
  split
  · next heq => exact ⟨h, by rw [heq]; rfl⟩
  · next t ts heq =>
    split
    · next hk => exact ⟨h, by simp [heq, Kind.mayFollow, hk]⟩
    · next hk =>
      refine ⟨LaidOut.newline h ?_, rfl⟩
      simp [heq, Kind.mayFollow, hk]

/-- The start of a line keeps the tokens orderly. -/
theorem Entered.laid (h : s.Entered cs s') (hs : Laid s) (hafter : s.AfterNewline) :
    Laid s' ∧ s'.lineStart = false := by
  have hentered : Laid (s.enter cs) := hs
  cases h with
  | within hstart => exact ⟨hs, hstart⟩
  | blank => exact ⟨hentered, rfl⟩
  | indent hstart _ hlt => exact ⟨LaidOut.indent hentered (hafter hstart) hlt, rfl⟩
  | dedent hstart =>
    have hexcess : s.excess (lineWidth cs) ≤ s.levels.length := (List.takeWhile_sublist _).length_le
    have hfollows := Kind.mayFollow_eof_of_indent (hafter hstart)
    exact ⟨(hentered.close hfollows hexcess).1, (close_eq _ (s.enter cs)).2.2.1⟩

/-- Taking a piece keeps the tokens orderly, and a line starts only after a newline. -/
theorem Laid.take {c : Char} {r : List Char} {p : Piece} (h : Laid s) (hstart : s.lineStart = false)
    (hp : readPiece c r = .ok (p, rest)) : Laid (s.take p) ∧ (s.take p).AfterNewline := by
  have houtcome := pieceOutcome_readPiece c r
  rw [hp] at houtcome
  have hnever : ∀ s' : Scanner, s'.lineStart = s.lineStart → s'.AfterNewline := by
    intro s' heq hline
    rw [heq, hstart] at hline
    cases hline
  cases p with
  | lexeme k text =>
    have hpushed := LaidOut.lexeme h houtcome.isLayout
    exact ⟨hpushed, hnever _ rfl⟩
  | newline =>
    obtain ⟨hbroken, hfollows⟩ := h.breakLine
    by_cases hnesting : s.nesting = 0
    · simp only [Scanner.take, hnesting, if_true, AfterNewline]
      exact ⟨hbroken, fun _ => hfollows⟩
    · simp only [Scanner.take, hnesting, if_false]
      exact ⟨h, fun hline => by cases hline⟩
  | blank | comment | joint => exact ⟨h, hnever _ rfl⟩

theorem Steps.laid {n : Nat} (h : Steps n s cs s' rest) (hs : Laid s) (hafter : s.AfterNewline) :
    Laid s' ∧ s'.AfterNewline := by
  induction h with
  | refl => exact ⟨hs, hafter⟩
  | step _ hstep _ ih =>
    obtain ⟨s₁, hlayout, hpiece⟩ := step_eq_ok_iff.mp hstep
    obtain ⟨hs₁, hstart₁⟩ := (entered_of_layout hlayout).laid hs hafter
    obtain ⟨-, rfl, -⟩ | ⟨c, r, p, -, hp, rfl⟩ := hpiece
    · refine ih hs₁ fun hline => ?_
      rw [hstart₁] at hline
      cases hline
    · obtain ⟨hs₂, hafter₂⟩ := hs₁.take hstart₁ hp
      exact ih hs₂ hafter₂

/-- The states that the scanner goes through on a text, with those between two tokens of layout. -/
inductive Visits (source : String) : Scanner → Prop
  | between {n : Nat} {s : Scanner} {cs : List Char} :
      Steps n start source.toList s cs → Visits source s
  | entered {n : Nat} {s s' : Scanner} {cs : List Char} :
      Steps n start source.toList s cs → s.layout cs = .ok s' → Visits source s'
  | closing {n count : Nat} {s : Scanner} {cs : List Char} :
      Steps n start source.toList s cs → s.lineStart = true → count ≤ s.excess (lineWidth cs) →
      Visits source ((s.enter cs).close count)
  | finishing {n count : Nat} {s : Scanner} :
      Steps n start source.toList s [] → count ≤ s.levels.length →
      Visits source (s.breakLine.close count)

theorem laid_of_steps {source : String} {n : Nat} (h : Steps n start source.toList s cs) :
    Laid s ∧ s.AfterNewline :=
  h.laid .nil fun _ => rfl

theorem Visits.laid {source : String} (h : Visits source s) : Laid s := by
  cases h with
  | between hsteps => exact (laid_of_steps hsteps).1
  | entered hsteps hlayout =>
    obtain ⟨hlaid, hafter⟩ := laid_of_steps hsteps
    exact ((entered_of_layout hlayout).laid hlaid hafter).1
  | @closing _ count s cs hsteps hstart hcount =>
    obtain ⟨hlaid, hafter⟩ := laid_of_steps hsteps
    have hexcess : s.excess (lineWidth cs) ≤ s.levels.length := (List.takeWhile_sublist _).length_le
    have hentered : Laid (s.enter cs) := hlaid
    exact (hentered.close (Kind.mayFollow_eof_of_indent (hafter hstart)) (hcount.trans hexcess)).1
  | finishing hsteps hcount =>
    obtain ⟨hbroken, hfollows⟩ := (laid_of_steps hsteps).1.breakLine
    rw [← levels_breakLine] at hcount
    exact (hbroken.close (Kind.mayFollow_eof_of_indent hfollows) hcount).1

/-- The end of the text closes every block. -/
theorem Laid.finish (h : Laid s) : WellLaid (kinds s.finish) := by
  obtain ⟨hbroken, hfollows⟩ := h.breakLine
  obtain ⟨hclosed, hfollows⟩ :=
    hbroken.close (Kind.mayFollow_eof_of_indent hfollows) (Nat.le_refl _)
  have hlevels : (s.breakLine.close s.breakLine.levels.length).levels = [] := by
    rw [(close_eq _ _).1, List.drop_length]
  rw [Laid, hlevels] at hclosed
  have hkinds : kinds s.finish =
      (.eof :: kinds (s.breakLine.close s.breakLine.levels.length).emitted).reverse := by
    rw [Scanner.finish, kinds, List.map_reverse]
    rfl
  rw [hkinds]
  refine Orderly.wellLaid ⟨hfollows, ?_, hclosed.orderly⟩ hclosed.noEnd hclosed.opens.symm
  rw [List.count_cons_of_ne (by decide), List.count_cons_of_ne (by decide)]
  exact hclosed.orderly.count_le

end Scanner

theorem wellLaid_scan {source : String} {ts : List Token} (h : scan source = .ok ts) :
    WellLaid (kinds ts) := by
  obtain ⟨n, -, s, rest, hsteps, ⟨-, hrun⟩ | ⟨e, -, -, hrun⟩⟩ :=
    Scanner.exists_steps .start source.toList
  · rw [scan, hrun] at h
    cases h
    exact (Scanner.laid_of_steps hsteps).1.finish
  · rw [scan, hrun] at h
    cases h

/-- The tokens of every text are well laid. In every state that the scanner goes through, the widths
on the stack increase from the margin, and there is one for each block that is open and one more. -/
theorem scan_wellLaid (source : String) :
    (∀ ts, scan source = .ok ts → WellLaid (kinds ts)) ∧
    ∀ s, Scanner.Visits source s → s.stack.Pairwise (· < ·) ∧
      s.stack.length + (kinds s.emitted).count .dedent = (kinds s.emitted).count .indent + 1 := by
  refine ⟨fun ts hts => wellLaid_scan hts, fun s hs => ?_⟩
  have hlaid := hs.laid
  refine ⟨hlaid.increasing, ?_⟩
  rw [hlaid.opens, Scanner.stack, List.length_cons, List.length_reverse]
  omega

/-- An indented first line, and a block that starts with a joined line and ends with a comment. -/
def joinedBlock : String := "  a:\n    \\\n\n    (\n1)\n # c"

/-- The block opens before its joined line, which is empty. -/
def joinedBlockTokens : List Token :=
  [⟨.indent, ⟨1, 3⟩⟩, ⟨.ident "a", ⟨1, 3⟩⟩, ⟨.symbol .colon, ⟨1, 4⟩⟩, ⟨.newline, ⟨1, 5⟩⟩,
    ⟨.indent, ⟨2, 5⟩⟩, ⟨.newline, ⟨3, 1⟩⟩, ⟨.symbol .openParen, ⟨4, 5⟩⟩, ⟨.int 1, ⟨5, 1⟩⟩,
    ⟨.symbol .closeParen, ⟨5, 2⟩⟩, ⟨.newline, ⟨5, 3⟩⟩, ⟨.dedent, ⟨6, 5⟩⟩, ⟨.dedent, ⟨6, 5⟩⟩,
    ⟨.eof, ⟨6, 5⟩⟩]

theorem scan_wellLaid_joinedBlock :
    scan joinedBlock = .ok joinedBlockTokens ∧ WellLaid (kinds joinedBlockTokens) ∧
    ∃ s, Scanner.Visits joinedBlock s ∧ s.stack = [0, 2] ∧ s.stack.Pairwise (· < ·) ∧
      s.stack.length + (kinds s.emitted).count .dedent = (kinds s.emitted).count .indent + 1 := by
  have hscan : scan joinedBlock = .ok joinedBlockTokens := by decide +kernel
  have hvisits : Scanner.Visits joinedBlock ⟨⟨1, 3⟩, [2], 0, false, [⟨.indent, ⟨1, 3⟩⟩]⟩ :=
    .entered (.refl _ _) (by decide +kernel)
  obtain ⟨hlaid, hstack⟩ := scan_wellLaid joinedBlock
  exact ⟨hscan, hlaid _ hscan, _, hvisits, rfl, hstack _ hvisits⟩

end Braces
