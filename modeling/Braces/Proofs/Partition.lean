import Mathlib.Data.List.Induction
import Braces.Proofs.Scanning.Steps

/-!
# The scanner cuts the text up

The tokens of a text and what is skipped between them make up the text, and every token is marked
with the place where it was found. Offsets count characters from the start of the text. A place is
what the text before it says: a line for each newline, and a column for each character since the
last one.
-/

namespace Braces

/-! ## Places -/

/-- The place at an offset. -/
def placeAt (source : List Char) (n : Nat) : Pos :=
  ⟨1 + (source.take n).count '\n', 1 + ((source.take n).reverse.takeWhile (· ≠ '\n')).length⟩

theorem Pos.after_start (cs : List Char) :
    Pos.start.after cs =
      ⟨1 + cs.count '\n', 1 + (cs.reverse.takeWhile (· ≠ '\n')).length⟩ := by
  induction cs using List.reverseRecOn with
  | nil => rfl
  | append_singleton cs c ih =>
    rw [Pos.after_append, ih]
    by_cases hc : c = '\n'
    · subst hc
      simp [Pos.after, Pos.next, Nat.add_assoc]
    · simp [Pos.after, Pos.next, hc, Nat.add_comm]

theorem placeAt_eq_after (source : List Char) (n : Nat) :
    placeAt source n = Pos.start.after (source.take n) :=
  (Pos.after_start _).symm

/-! ## Cuts -/

/-- Where a token of layout stands: at the end of a line or of the text, or before the first thing
on a line. -/
def Kind.StandsBefore : Kind → List Char → Prop
  | .newline, rest => rest.head?.all (· = '\n') = true
  | .indent, rest => OpensLine rest
  | .dedent, rest => rest = [] ∨ OpensLine rest
  | .eof, rest => rest = []
  | _, _ => False

/-- The text from one offset to another is made up of lexemes and skipped text, without gap or
overlap. The marks are the kinds of the tokens with their offsets. A token of layout takes up no
text. -/
inductive Cut (source : List Char) : Nat → List (Nat × Kind) → Nat → Prop
  | done (n : Nat) : Cut source n [] n
  | skip {n m : Nat} {text rest : List Char} {marks : List (Nat × Kind)} :
      source.drop n = text ++ rest → Skipped text rest → Cut source (n + text.length) marks m →
      Cut source n marks m
  | lexeme {n m : Nat} {text rest : List Char} {k : Kind} {marks : List (Nat × Kind)} :
      source.drop n = text ++ rest → k.SpelledAs text → Cut source (n + text.length) marks m →
      Cut source n ((n, k) :: marks) m
  | layout {n m : Nat} {k : Kind} {marks : List (Nat × Kind)} :
      k.StandsBefore (source.drop n) → Cut source n marks m → Cut source n ((n, k) :: marks) m

/-- The token of a kind at an offset. -/
def tokenAt (source : List Char) (mark : Nat × Kind) : Token := ⟨mark.2, placeAt source mark.1⟩

namespace Cut

variable {source : List Char} {n m l : Nat} {marks marks' : List (Nat × Kind)}

theorem trans (h : Cut source n marks m) (h' : Cut source m marks' l) :
    Cut source n (marks ++ marks') l := by
  induction h with
  | done => exact h'
  | skip htext hskipped _ ih => exact .skip htext hskipped (ih h')
  | lexeme htext hspelled _ ih => exact .lexeme htext hspelled (ih h')
  | layout hstands _ ih => exact .layout hstands (ih h')

theorem le (h : Cut source n marks m) : n ≤ m := by
  induction h with
  | done => exact Nat.le_refl _
  | skip _ _ _ ih | lexeme _ _ _ ih => exact Nat.le_of_add_right_le ih
  | layout _ _ ih => exact ih

/-- Every mark lies in the text that is cut. -/
theorem between (h : Cut source n marks m) : ∀ mark ∈ marks, n ≤ mark.1 ∧ mark.1 ≤ m := by
  induction h with
  | done => exact List.forall_mem_nil _
  | skip _ _ _ ih =>
    exact fun mark hmark => ⟨Nat.le_of_add_right_le (ih mark hmark).1, (ih mark hmark).2⟩
  | lexeme _ _ hcut ih =>
    refine List.forall_mem_cons.mpr ⟨⟨Nat.le_refl _, Nat.le_of_add_right_le hcut.le⟩, ?_⟩
    exact fun mark hmark => ⟨Nat.le_of_add_right_le (ih mark hmark).1, (ih mark hmark).2⟩
  | layout _ hcut ih => exact List.forall_mem_cons.mpr ⟨⟨Nat.le_refl _, hcut.le⟩, ih⟩

/-- Offsets never decrease. -/
theorem pairwise (h : Cut source n marks m) : marks.Pairwise (·.1 ≤ ·.1) := by
  induction h with
  | done => exact .nil
  | skip _ _ _ ih => exact ih
  | lexeme _ _ hcut ih =>
    exact .cons (fun mark hmark => Nat.le_of_add_right_le (hcut.between mark hmark).1) ih
  | layout _ hcut ih => exact .cons (fun mark hmark => (hcut.between mark hmark).1) ih

/-- A mark is one of a lexeme or of layout. -/
theorem spelledAs (h : Cut source n marks m) :
    ∀ mark ∈ marks, mark.2.isLayout = true ∨ ∃ text, mark.2.SpelledAs text := by
  induction h with
  | done => exact List.forall_mem_nil _
  | skip _ _ _ ih => exact ih
  | lexeme _ hspelled _ ih => exact List.forall_mem_cons.mpr ⟨.inr ⟨_, hspelled⟩, ih⟩
  | @layout n m k marks hstands _ ih =>
    refine List.forall_mem_cons.mpr ⟨.inl ?_, ih⟩
    cases k <;> first | rfl | exact hstands.elim

/-- Blanks at the start of a line are skipped one by one. -/
theorem blanks {bs rest : List Char} (htext : source.drop n = bs ++ rest)
    (hbs : bs.all Scanner.isIndentation = true) : Cut source n [] (n + bs.length) := by
  induction bs generalizing n with
  | nil => exact .done n
  | cons b bs ih =>
    rw [List.all_cons, Bool.and_eq_true] at hbs
    have hb : b = ' ' ∨ b = '\t' ∨ b = '\r' ∨ b = '\x0c' := by
      have := hbs.1
      simp only [Scanner.isIndentation, Bool.or_eq_true, decide_eq_true_eq] at this
      tauto
    have hrest : source.drop (n + [b].length) = bs ++ rest := by
      rw [← List.drop_drop, htext]
      rfl
    have hcut := ih hrest hbs.2
    rw [Nat.add_assoc, Nat.add_comm [b].length] at hcut
    have hsplit : source.drop n = [b] ++ (bs ++ rest) := htext
    exact .skip hsplit (.blank hb) hcut

/-- Several tokens of layout at one place. -/
theorem replicate {k : Kind} (h : k.StandsBefore (source.drop n)) (count : Nat) :
    Cut source n (List.replicate count (n, k)) n := by
  induction count with
  | zero => exact .done n
  | succ count ih => exact .layout h ih

end Cut

/-! ## What the scanner cuts -/

namespace Scanner

variable {source cs rest : List Char} {s s' s'' : Scanner} {n m l : Nat}

/-- The scanner stands at an offset, with the text from there on unread. -/
structure At (source : List Char) (s : Scanner) (n : Nat) (cs : List Char) : Prop where
  unread : source.drop n = cs
  le : n ≤ source.length
  pos : s.pos = placeAt source n

theorem At.advance {text : List Char} (h : At source s n (text ++ rest))
    (hpos : s'.pos = s.pos.after text) : At source s' (n + text.length) rest := by
  have htake : source.take (n + text.length) = source.take n ++ text := by
    rw [List.take_add, h.unread, List.take_left]
  have hlength : source.length - n = text.length + rest.length := by
    rw [← List.length_drop, h.unread, List.length_append]
  have hle := h.le
  refine ⟨?_, by omega, ?_⟩
  · rw [← List.drop_drop, h.unread, List.drop_left]
  · rw [hpos, h.pos, placeAt_eq_after, placeAt_eq_after, htake, Pos.after_append]

/-- From one offset to another the scanner cuts the text, and emits the tokens of the marks. -/
def Cuts (source : List Char) (s : Scanner) (n : Nat) (s' : Scanner) (m : Nat) : Prop :=
  ∃ marks, Cut source n marks m ∧ s'.emitted = (marks.map (tokenAt source)).reverse ++ s.emitted

namespace Cuts

/-- Text that makes no token. -/
theorem of_emitted_eq (hcut : Cut source n [] m) (h : s'.emitted = s.emitted) :
    Cuts source s n s' m :=
  ⟨[], hcut, h⟩

theorem trans (h : Cuts source s n s' m) (h' : Cuts source s' m s'' l) : Cuts source s n s'' l := by
  obtain ⟨marks, hcut, hemitted⟩ := h
  obtain ⟨marks', hcut', hemitted'⟩ := h'
  refine ⟨marks ++ marks', hcut.trans hcut', ?_⟩
  rw [hemitted', hemitted, List.map_append, List.reverse_append, List.append_assoc]

end Cuts

/-- Tokens of layout are emitted where the scanner stands. -/
theorem At.cuts_layout {k : Kind} (h : At source s n cs) (hk : k.StandsBefore cs) (count : Nat)
    (hemitted : s'.emitted = List.replicate count ⟨k, s.pos⟩ ++ s.emitted) :
    Cuts source s n s' n := by
  rw [← h.unread] at hk
  refine ⟨List.replicate count (n, k), .replicate hk count, ?_⟩
  rw [hemitted, h.pos, List.map_replicate, List.reverse_replicate]
  rfl

theorem emitted_close (count : Nat) (s : Scanner) :
    (s.close count).emitted = List.replicate count ⟨.dedent, s.pos⟩ ++ s.emitted := by
  induction count generalizing s with
  | zero => rfl
  | succ count ih =>
    rw [close, ih, List.replicate_succ', List.append_assoc]
    rfl

theorem At.cuts_breakLine (h : At source s n cs) (hcs : cs.head?.all (· = '\n') = true) :
    Cuts source s n s.breakLine n := by
  obtain heq | heq := s.breakLine_cases
  · rw [heq]
    exact .of_emitted_eq (.done n) rfl
  · rw [heq]
    exact h.cuts_layout (k := .newline) hcs 1 rfl

/-- Before a piece, blanks are skipped and tokens of layout are emitted. -/
theorem Entered.cuts (h : s.Entered cs s') (hat : At source s n cs) :
    ∃ m, At source s' m (s.afterBlanks cs) ∧ Cuts source s n s' m := by
  have hsplit := hat
  rw [← List.takeWhile_append_dropWhile (p := isIndentation) (l := cs)] at hsplit
  have hentered : At source (s.enter cs) _ _ := hsplit.advance rfl
  have hblanks : Cuts source s n (s.enter cs) _ :=
    .of_emitted_eq (.blanks hsplit.unread List.all_takeWhile) rfl
  unfold afterBlanks
  cases h with
  | within hstart =>
    rw [hstart]
    exact ⟨n, hat, .of_emitted_eq (.done n) rfl⟩
  | blank hstart =>
    rw [hstart]
    exact ⟨_, hentered, hblanks⟩
  | indent hstart hopens =>
    rw [hstart]
    refine ⟨_, ⟨hentered.unread, hentered.le, hentered.pos⟩, hblanks.trans ?_⟩
    exact hentered.cuts_layout (k := .indent) hopens 1 rfl
  | dedent hstart hopens =>
    rw [hstart]
    refine ⟨_, ⟨hentered.unread, hentered.le, (pos_close _ _).trans hentered.pos⟩, hblanks.trans ?_⟩
    exact hentered.cuts_layout (k := .dedent) (.inr hopens) _ (emitted_close _ _)

theorem pos_take (s : Scanner) (p : Piece) : (s.take p).pos = s.pos.after p.text := by
  cases p <;> rfl

/-- A line break and a joint lead to the next line. Any other piece stands on one line, and the
column goes up by its length. -/
theorem pos_take_of_readPiece {c : Char} {r : List Char} {p : Piece} (s : Scanner)
    (hp : readPiece c r = .ok (p, rest)) :
    (s.take p).pos =
      if p = .newline ∨ p = .joint then ⟨s.pos.line + 1, 1⟩
      else ⟨s.pos.line, s.pos.column + p.text.length⟩ := by
  rw [pos_take]
  split
  · next hbreak => obtain rfl | rfl := hbreak <;> rfl
  · next hline =>
    rw [not_or] at hline
    exact s.pos.after_of_newline_notMem (newline_notMem_of_readPiece hp hline.1 hline.2)

/-- At the start of a line the column goes up by the length of its blanks. -/
theorem pos_of_layout (h : s.layout cs = .ok s') :
    s'.pos =
      if s.lineStart then ⟨s.pos.line, s.pos.column + (cs.takeWhile isIndentation).length⟩
        else s.pos := by
  have henter : (s.enter cs).pos =
      ⟨s.pos.line, s.pos.column + (cs.takeWhile isIndentation).length⟩ :=
    s.pos.after_of_newline_notMem (newline_notMem_of_all rfl List.all_takeWhile)
  cases entered_of_layout h with
  | within hstart => rw [hstart]; rfl
  | blank hstart | indent hstart => rw [hstart]; exact henter
  | dedent hstart => rw [hstart]; exact (pos_close _ _).trans henter

/-- A piece is skipped or makes a token. -/
theorem At.take {c : Char} {r : List Char} {p : Piece} (h : At source s n (c :: r))
    (hp : readPiece c r = .ok (p, rest)) :
    At source (s.take p) (n + p.text.length) rest ∧
      Cuts source s n (s.take p) (n + p.text.length) := by
  have htext := readPiece_text hp
  have houtcome := pieceOutcome_readPiece c r
  rw [hp] at houtcome
  rw [← htext] at h
  refine ⟨h.advance (s.pos_take p), ?_⟩
  have hskip : ∀ s₁ : Scanner, Skipped p.text rest → s₁.emitted = (s.take p).emitted →
      Cuts source s₁ n (s.take p) (n + p.text.length) :=
    fun s₁ hskipped heq => .of_emitted_eq (.skip h.unread hskipped (.done _)) heq.symm
  cases p with
  | lexeme k text =>
    refine ⟨[(n, k)], .lexeme h.unread houtcome (.done _), ?_⟩
    rw [List.map_singleton, tokenAt, ← h.pos]
    rfl
  | newline =>
    by_cases hnesting : s.nesting = 0
    · refine (h.cuts_breakLine rfl).trans (hskip _ houtcome ?_)
      simp only [Scanner.take, hnesting, if_true]
    · refine hskip s houtcome ?_
      simp only [Scanner.take, hnesting, if_false]
  | blank c => exact hskip s houtcome rfl
  | comment body => exact hskip s houtcome rfl
  | joint => exact hskip s houtcome rfl

/-- Steps cut the text that they use up. -/
theorem Steps.cuts {count : Nat} (h : Steps count s cs s' rest) (hat : At source s n cs) :
    ∃ m, At source s' m rest ∧ Cuts source s n s' m := by
  induction h generalizing n with
  | refl => exact ⟨n, hat, .of_emitted_eq (.done n) rfl⟩
  | step _ hstep _ ih =>
    obtain ⟨s₁, hlayout, hpiece⟩ := step_eq_ok_iff.mp hstep
    obtain ⟨m, hat₁, hcuts₁⟩ := (entered_of_layout hlayout).cuts hat
    obtain ⟨hnone, rfl, rfl⟩ | ⟨c, r, p, hsome, hp, rfl⟩ := hpiece
    · rw [hnone] at hat₁
      obtain ⟨l, hat₂, hcuts₂⟩ := ih hat₁
      exact ⟨l, hat₂, hcuts₁.trans hcuts₂⟩
    · rw [hsome] at hat₁
      obtain ⟨hat₂, hcuts₂⟩ := hat₁.take hp
      obtain ⟨l, hat₃, hcuts₃⟩ := ih hat₂
      exact ⟨l, hat₃, (hcuts₁.trans hcuts₂).trans hcuts₃⟩

/-- A step that fails stands at the fault. -/
theorem At.error {e : ScanError} (h : At source s n cs) (he : s.step cs = .error e) :
    ∃ m s', At source s' m e.unread ∧ Cuts source s n s' m ∧ e.pos = s'.pos ∧
      e.fault.FoundIn e.unread := by
  obtain hlayout | ⟨s₁, c, r, fault, hlayout, hsome, hp, rfl⟩ := step_eq_error_iff.mp he
  · obtain ⟨hstart, hopens, rfl⟩ := error_of_layout hlayout
    obtain ⟨m, hat, hcuts⟩ := (Entered.blank hstart).cuts h
    rw [afterBlanks, hstart] at hat
    exact ⟨m, s.enter cs, hat, hcuts, rfl, hopens⟩
  · obtain ⟨m, hat, hcuts⟩ := (entered_of_layout hlayout).cuts h
    rw [hsome] at hat
    have houtcome := pieceOutcome_readPiece c r
    rw [hp] at houtcome
    exact ⟨m, s₁, hat, hcuts, rfl, houtcome⟩

/-- The end of the text adds tokens of layout only. -/
theorem At.finish (h : At source s n []) (hcuts : Cuts source start 0 s n) :
    ∃ marks, Cut source 0 marks n ∧ s.finish = marks.map (tokenAt source) := by
  have hbreak := h.cuts_breakLine rfl
  have hat : At source s.breakLine n [] := by
    refine ⟨h.unread, h.le, ?_⟩
    obtain heq | heq := s.breakLine_cases <;> rw [heq] <;> exact h.pos
  have hclose :=
    hat.cuts_layout (k := .dedent) (.inl rfl) _ (emitted_close s.breakLine.levels.length _)
  have hat' : At source (s.breakLine.close s.breakLine.levels.length) n [] :=
    ⟨hat.unread, hat.le, (pos_close _ _).trans hat.pos⟩
  have heof : Cuts source _ n ((s.breakLine.close s.breakLine.levels.length).push .eof) n :=
    hat'.cuts_layout (k := .eof) rfl 1 rfl
  obtain ⟨marks, hcut, hemitted⟩ := ((hcuts.trans hbreak).trans hclose).trans heof
  refine ⟨marks, hcut, ?_⟩
  rw [Scanner.finish, hemitted]
  simp [start]

end Scanner

/-- Lexemes and skipped text make up a text up to an offset, and the marks come in order. -/
structure IsPartition (source : List Char) (marks : List (Nat × Kind)) (n : Nat) : Prop where
  le : n ≤ source.length
  cut : Cut source 0 marks n
  ordered : marks.Pairwise (·.1 ≤ ·.1)
  within : ∀ mark ∈ marks, mark.1 ≤ n

theorem Cut.isPartition {source : List Char} {marks : List (Nat × Kind)} {n : Nat}
    (h : Cut source 0 marks n) (hle : n ≤ source.length) : IsPartition source marks n :=
  ⟨hle, h, h.pairwise, fun mark hmark => (h.between mark hmark).2⟩

/-- The tokens of a text are the marks of a cut of the whole text. -/
theorem exists_cut_of_scan {source : String} {ts : List Token} (h : scan source = .ok ts) :
    ∃ marks, Cut source.toList 0 marks source.toList.length ∧
      ts = marks.map (tokenAt source.toList) := by
  obtain ⟨n, -, s, unread, hsteps, ⟨rfl, hrun⟩ | ⟨e, -, -, hrun⟩⟩ :=
    Scanner.exists_steps .start source.toList
  · rw [scan, hrun] at h
    cases h
    have hstart : Scanner.At source.toList .start 0 source.toList := ⟨rfl, Nat.zero_le _, rfl⟩
    obtain ⟨m, hat, hcuts⟩ := hsteps.cuts hstart
    obtain rfl : m = source.toList.length :=
      Nat.le_antisymm hat.le (List.drop_eq_nil_iff.mp hat.unread)
    exact hat.finish hcuts
  · rw [scan, hrun] at h
    cases h

theorem spelledAs_of_scan {source : String} {ts : List Token} (h : scan source = .ok ts) :
    ∀ t ∈ ts, t.kind.isLayout = true ∨ ∃ text, t.kind.SpelledAs text := by
  obtain ⟨marks, hcut, rfl⟩ := exists_cut_of_scan h
  intro t ht
  obtain ⟨mark, hmark, rfl⟩ := List.mem_map.mp ht
  exact hcut.spelledAs mark hmark

/-- Scanning ends after at most as many steps as the text has characters. The tokens are the marks
of a partition of the whole text, each with the place at its offset. A failure has the place at the
offset where the text that starts with the fault is still unread, and what comes before is
partitioned. -/
theorem scan_partitions (source : String) :
    (∃ n ≤ source.toList.length, ∃ s unread, Scanner.Steps n .start source.toList s unread ∧
      (unread = [] ∧ scan source = .ok s.finish ∨
        ∃ e, unread ≠ [] ∧ s.step unread = .error e ∧ scan source = .error e)) ∧
    match scan source with
    | .ok ts => ∃ marks, IsPartition source.toList marks source.toList.length ∧
        ts = marks.map (tokenAt source.toList)
    | .error e => ∃ marks n, IsPartition source.toList marks n ∧ e.unread = source.toList.drop n ∧
        e.pos = placeAt source.toList n ∧ e.fault.FoundIn e.unread := by
  have hstart : Scanner.At source.toList .start 0 source.toList := ⟨rfl, Nat.zero_le _, rfl⟩
  obtain ⟨n, hn, s, unread, hsteps, hends⟩ := Scanner.exists_steps .start source.toList
  obtain ⟨m, hat, hcuts⟩ := hsteps.cuts hstart
  obtain ⟨rfl, hrun⟩ | ⟨e, hunread, hstep, hrun⟩ := hends
  · have hscan : scan source = .ok s.finish := by rw [scan, hrun]; rfl
    refine ⟨⟨n, hn, s, [], hsteps, .inl ⟨rfl, hscan⟩⟩, ?_⟩
    rw [hscan]
    obtain ⟨marks, hcut, hmarks⟩ := exists_cut_of_scan hscan
    exact ⟨marks, hcut.isPartition (Nat.le_refl _), hmarks⟩
  · have hscan : scan source = .error e := by rw [scan, hrun]; rfl
    refine ⟨⟨n, hn, s, unread, hsteps, .inr ⟨e, hunread, hstep, hscan⟩⟩, ?_⟩
    rw [hscan]
    obtain ⟨l, s', hat', hcuts', hpos, hfault⟩ := hat.error hstep
    obtain ⟨marks, hcut, -⟩ := hcuts.trans hcuts'
    exact ⟨marks, l, hcut.isPartition hat'.le, hat'.unread.symm, hpos.trans hat'.pos, hfault⟩

end Braces
