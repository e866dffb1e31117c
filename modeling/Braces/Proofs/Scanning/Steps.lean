import Braces.Proofs.Printing.Scanning
import Braces.Proofs.Scanning.Lexemes

/-!
# The steps of the scanner

What the scanner does at the start of a line and with a piece, each said once, and what a whole run
is: so many steps, one after another, to the end of the text or to a step that fails.
-/

namespace Braces

namespace Scanner

variable {s s' : Scanner} {cs rest : List Char} {e : ScanError}

/-! ## The start of a line -/

/-- The scanner after the blanks at the start of a line. -/
def enter (s : Scanner) (cs : List Char) : Scanner :=
  { s with pos := s.pos.after (cs.takeWhile isIndentation), lineStart := false }

/-- The indentation of a line. -/
def lineWidth (cs : List Char) : Nat := indentationWidth (cs.takeWhile isIndentation)

/-- What becomes of the scanner before a piece is read. -/
inductive Entered (s : Scanner) (cs : List Char) : Scanner → Prop
  | within : s.lineStart = false → Entered s cs s
  | blank : s.lineStart = true → Entered s cs (s.enter cs)
  | indent : s.lineStart = true → OpensLine (cs.dropWhile isIndentation) → s.level < lineWidth cs →
      Entered s cs { (s.enter cs).push .indent with levels := lineWidth cs :: s.levels }
  | dedent : s.lineStart = true → OpensLine (cs.dropWhile isIndentation) →
      Entered s cs ((s.enter cs).close (s.excess (lineWidth cs)))

theorem opensLine_of_startsBlankLine
    (h : startsBlankLine (cs.dropWhile isIndentation) = false) :
    OpensLine (cs.dropWhile isIndentation) := by
  have hhead := all_head?_dropWhile isIndentation cs
  cases heq : cs.dropWhile isIndentation with
  | nil =>
    rw [heq] at h
    cases h
  | cons c r =>
    rw [heq] at h hhead
    refine ⟨c, r, rfl, ?_⟩
    simp only [startsBlankLine, Bool.or_eq_false_iff, decide_eq_false_iff_not] at h
    simp only [List.head?_cons, Option.all_some, isIndentation, Bool.not_eq_true',
      Bool.or_eq_false_iff, decide_eq_false_iff_not] at hhead
    simp [h, hhead]

theorem entered_of_layout (h : s.layout cs = .ok s') : s.Entered cs s' := by
  unfold layout at h
  split at h
  · next hstart =>
    dsimp only at h
    split at h
    · cases h
      exact .blank hstart
    · next hblank =>
      have hopens := opensLine_of_startsBlankLine (Bool.eq_false_of_not_eq_true hblank)
      unfold indentTo at h
      split at h
      · next hlt =>
        cases h
        exact .indent hstart hopens hlt
      · dsimp only at h
        split at h
        · cases h
          exact .dedent hstart hopens
        · cases h
  · next hstart =>
    cases h
    exact .within (Bool.eq_false_of_not_eq_true hstart)

theorem pos_close (n : Nat) (s : Scanner) : (s.close n).pos = s.pos := by
  induction n generalizing s with
  | zero => rfl
  | succ n ih => exact ih _

theorem breakLine_cases (s : Scanner) : s.breakLine = s ∨ s.breakLine = s.push .newline := by
  unfold breakLine
  split
  · exact .inl rfl
  · split
    · exact .inl rfl
    · exact .inr rfl

theorem levels_breakLine (s : Scanner) : s.breakLine.levels = s.levels := by
  obtain heq | heq := s.breakLine_cases <;> rw [heq]
  rfl

/-- Only a line that is not blank fails, and it fails before its first piece. -/
theorem error_of_layout (h : s.layout cs = .error e) :
    s.lineStart = true ∧ OpensLine (cs.dropWhile isIndentation) ∧
      e = ⟨.inconsistentDedent, (s.enter cs).pos, cs.dropWhile isIndentation⟩ := by
  unfold layout at h
  split at h
  · next hstart =>
    dsimp only at h
    split at h
    · cases h
    · next hblank =>
      refine ⟨hstart, opensLine_of_startsBlankLine (Bool.eq_false_of_not_eq_true hblank), ?_⟩
      unfold indentTo at h
      split at h
      · cases h
      · dsimp only at h
        split at h
        · cases h
        · cases h
          rw [pos_close]
          rfl
  · cases h

/-! ## One step -/

/-- A step goes by the layout of a line, and then takes a piece if there is one. -/
theorem step_eq_ok_iff : s.step cs = .ok (s', rest) ↔ ∃ s₁, s.layout cs = .ok s₁ ∧
    (s.afterBlanks cs = [] ∧ s' = s₁ ∧ rest = [] ∨
      ∃ c r p, s.afterBlanks cs = c :: r ∧ readPiece c r = .ok (p, rest) ∧ s' = s₁.take p) := by
  unfold step
  cases s.layout cs with
  | error e => simp
  | ok s₁ =>
    cases s.afterBlanks cs with
    | nil => simp [eq_comm]
    | cons c r =>
      cases hp : readPiece c r with
      | error fault => simp [hp]
      | ok pair =>
        obtain ⟨p, rest'⟩ := pair
        simp [hp, eq_comm, and_comm]

theorem step_eq_error_iff : s.step cs = .error e ↔ s.layout cs = .error e ∨
    ∃ s₁ c r fault, s.layout cs = .ok s₁ ∧ s.afterBlanks cs = c :: r ∧
      readPiece c r = .error fault ∧ e = ⟨fault, s₁.pos, c :: r⟩ := by
  unfold step
  cases s.layout cs with
  | error e => simp
  | ok s₁ =>
    cases s.afterBlanks cs with
    | nil => simp
    | cons c r =>
      cases hp : readPiece c r with
      | error fault => simp [hp, eq_comm]
      | ok pair => simp [hp]

/-! ## A whole run -/

/-- So many steps lead from one state and the unread text to another. -/
inductive Steps : Nat → Scanner → List Char → Scanner → List Char → Prop
  | refl (s : Scanner) (cs : List Char) : Steps 0 s cs s cs
  | step {n : Nat} {s s₁ s' : Scanner} {cs r₁ rest : List Char} : cs ≠ [] →
      s.step cs = .ok (s₁, r₁) → Steps n s₁ r₁ s' rest → Steps (n + 1) s cs s' rest

theorem Steps.run_eq {n : Nat} (h : Steps n s cs s' rest) : s.run cs = s'.run rest := by
  induction h with
  | refl => rfl
  | step hcs hstep _ ih =>
    rw [run_eq_of_step _ hcs, hstep]
    exact ih

theorem run_nil (s : Scanner) : s.run [] = .ok s := by
  rw [run, dif_pos rfl]

/-- A run ends: the steps use up the text, or one of them fails. -/
theorem exists_steps (s : Scanner) (cs : List Char) :
    ∃ n ≤ cs.length, ∃ s' rest, Steps n s cs s' rest ∧
      (rest = [] ∧ s.run cs = .ok s' ∨
        ∃ e, rest ≠ [] ∧ s'.step rest = .error e ∧ s.run cs = .error e) := by
  fun_induction run s cs with
  | case1 s => exact ⟨0, Nat.zero_le _, s, [], .refl _ _, .inl ⟨rfl, rfl⟩⟩
  | case2 s cs hcs e hstep => exact ⟨0, Nat.zero_le _, s, cs, .refl _ _, .inr ⟨e, hcs, hstep, rfl⟩⟩
  | case3 s cs hcs s₁ r₁ hstep hlt ih =>
    obtain ⟨n, hn, s', rest, hsteps, hends⟩ := ih
    exact ⟨n + 1, Nat.succ_le_of_lt (Nat.lt_of_le_of_lt hn hlt), s', rest,
      .step hcs hstep hsteps, hends⟩

end Scanner

end Braces
