import Braces.Proofs.Scanning.InStep

/-!
# Line endings

A carriage return before every newline changes the tokens of a text in their places only, and where
a text cannot be scanned the fault is the same. The one exception is a line that is joined to the
next: a backslash before a carriage return is no joint, and nothing else starts with a backslash.
-/

namespace Braces

/-! ## Carriage returns -/

/-- A carriage return before every newline. -/
def crlf (cs : List Char) : List Char := cs.flatMap fun c => if c = '\n' then ['\r', '\n'] else [c]

@[simp] theorem crlf_nil : crlf [] = [] := rfl

@[simp] theorem crlf_newline (r : List Char) : crlf ('\n' :: r) = '\r' :: '\n' :: crlf r := rfl

theorem crlf_cons {c : Char} (hc : c ≠ '\n') (r : List Char) : crlf (c :: r) = c :: crlf r := by
  simp [crlf, hc]

theorem crlf_append (cs ds : List Char) : crlf (cs ++ ds) = crlf cs ++ crlf ds :=
  List.flatMap_append

theorem crlf_eq_self {cs : List Char} (h : '\n' ∉ cs) : crlf cs = cs := by
  induction cs with
  | nil => rfl
  | cons c cs ih =>
    obtain ⟨hc, hcs⟩ := not_or.1 (List.mem_cons.not.1 h)
    rw [crlf_cons (Ne.symm hc), ih hcs]

theorem crlf_ne_nil {cs : List Char} (h : cs ≠ []) : crlf cs ≠ [] := by
  obtain ⟨c, r, rfl⟩ := List.exists_cons_of_ne_nil h
  by_cases hc : c = '\n'
  · subst hc
    exact List.cons_ne_nil _ _
  · rw [crlf_cons hc]
    exact List.cons_ne_nil _ _

/-- A text is a line without its break, and then a break and the rest if the text goes on. -/
theorem exists_line (cs : List Char) :
    ∃ line t, cs = line ++ t ∧ '\n' ∉ line ∧ (t = [] ∨ ∃ rest, t = '\n' :: rest) := by
  refine ⟨cs.takeWhile (· ≠ '\n'), cs.dropWhile (· ≠ '\n'),
    List.takeWhile_append_dropWhile.symm, ?_, ?_⟩
  · intro hmem
    simpa using List.mem_takeWhile_imp hmem
  · have hhead := all_head?_dropWhile (· ≠ '\n') cs
    cases heq : cs.dropWhile (· ≠ '\n') with
    | nil => exact .inl rfl
    | cons c rest =>
      rw [heq] at hhead
      obtain rfl : c = '\n' := by simpa using hhead
      exact .inr ⟨rest, rfl⟩

theorem takeWhile_crlf {p : Char → Bool} (hp : p '\n' = false ∧ p '\r' = false) (cs : List Char) :
    (crlf cs).takeWhile p = cs.takeWhile p ∧ (crlf cs).dropWhile p = crlf (cs.dropWhile p) := by
  induction cs with
  | nil => exact ⟨rfl, rfl⟩
  | cons c cs ih =>
    by_cases hc : c = '\n'
    · subst hc
      simp [hp]
    · rw [crlf_cons hc]
      by_cases hpc : p c = true
      · simp [hpc, ih]
      · simp [hpc, crlf_cons hc]

/-- A carriage return before the newline does not matter to a lexeme. -/
theorem readPiece_crlf {c : Char} (hc : isPlain c = true) (r : List Char) :
    readPiece c (crlf r) = (readPiece c r).map fun x => (x.1, crlf x.2) := by
  obtain ⟨line, t, rfl, hline, ht⟩ := exists_line r
  have hrest : ∀ {p rest}, readPiece c line = .ok (p, rest) → crlf rest = rest := by
    intro p rest hp
    have htext := readPiece_text hp
    obtain ⟨d, ds, hd⟩ := List.exists_cons_of_ne_nil (readPiece_ne_nil hp)
    rw [hd, List.cons_append, List.cons.injEq] at htext
    refine crlf_eq_self fun hmem => hline ?_
    rw [← htext.2]
    exact List.mem_append_right _ hmem
  rw [crlf_append, crlf_eq_self hline]
  obtain rfl | ⟨rest, rfl⟩ := ht
  · rw [crlf_nil, List.append_nil]
    cases hp : readPiece c line with
    | error fault => rfl
    | ok x =>
      rw [Except.map, hrest hp]
  · rw [crlf_newline, (StartsBreak.carriage _).readPiece_append hc,
      (StartsBreak.newline _).readPiece_append hc]
    cases hp : readPiece c line with
    | error fault => rfl
    | ok x => simp only [Except.map, crlf_append, crlf_newline, hrest hp]

/-- The second scanner is on the same line of the text with a carriage return before every
newline. -/
def carriages : Pairing where
  pos p p' := p.line = p'.line
  tokens ts ts' := kinds ts = kinds ts'
  text cs cs' := '\r' ∉ cs ∧ cs' = crlf cs
  after cs h := by rw [Pos.line_after, Pos.line_after, h]
  push k _ h := congrArg (k :: ·) h
  kinds h := h
  blanks h := by rw [h.2, (takeWhile_crlf ⟨rfl, rfl⟩ _).1]
  unindented h := by
    refine ⟨fun hmem => h.1 ((List.dropWhile_suffix _).subset hmem), ?_⟩
    rw [h.2, (takeWhile_crlf ⟨rfl, rfl⟩ _).2]
  blankLine := by
    rintro cs _ ⟨-, rfl⟩
    cases cs with
    | nil => rfl
    | cons c cs =>
      by_cases hc : c = '\n'
      · subst hc
        rfl
      · rw [crlf_cons hc]
        rfl

namespace Scanner

/-- The scanner comes to a backslash and a newline that join two lines, at the given place. -/
inductive JoinsAt : Scanner → List Char → Pos → Prop
  | here {s : Scanner} {r : List Char} : s.lineStart = false → JoinsAt s ('\\' :: '\n' :: r) s.pos
  | enter {s s₁ : Scanner} {cs : List Char} {p : Pos} : s.lineStart = true → cs ≠ [] →
      s.layout cs = .ok s₁ → JoinsAt s₁ (s.afterBlanks cs) p → JoinsAt s cs p
  | piece {s : Scanner} {c : Char} {r rest : List Char} {q : Piece} {p : Pos} :
      s.lineStart = false →
      readPiece c r = .ok (q, rest) → JoinsAt (s.take q) rest p → JoinsAt s (c :: r) p

variable {s s' : Scanner} {cs : List Char}

/-- What becomes of a text with carriage returns: it is scanned in step, or fails at the first
joint. -/
inductive Returned (s : Scanner) (cs : List Char) : Except ScanError Scanner → Prop
  | alike {o : Except ScanError Scanner} : (∀ p, ¬ s.JoinsAt cs p) → Agree carriages (s.run cs) o →
      Returned s cs o
  | joined {p p' : Pos} {unread : List Char} : s.JoinsAt cs p → p.line = p'.line →
      Returned s cs (.error ⟨.unexpectedCharacter '\\', p', unread⟩)

namespace Returned

variable {s₁ : Scanner} {c : Char} {r rest : List Char} {o : Except ScanError Scanner}

theorem nil (h : InStep carriages s s') : Returned s [] (.ok s') := by
  refine .alike (fun p hjoins => ?_) ?_
  · cases hjoins with
    | enter _ hne => exact hne rfl
  · rw [run_nil]
    exact .ok h

theorem enter (hs : s.lineStart = true) (hcs : cs ≠ []) (hlayout : s.layout cs = .ok s₁)
    (h : Returned s₁ (s.afterBlanks cs) o) : Returned s cs o := by
  cases h with
  | alike hnone hagree =>
    refine .alike (fun p hjoins => ?_) ?_
    · cases hjoins with
      | enter _ _ hlayout' hjoins =>
        rw [hlayout] at hlayout'
        cases hlayout'
        exact hnone p hjoins
      | here hfalse | piece hfalse =>
        rw [hs] at hfalse
        cases hfalse
    · rwa [run_of_layout hcs hlayout]
  | joined hjoins hline => exact .joined (.enter hs hcs hlayout hjoins) hline

theorem unentered {e : ScanError} (hs : s.lineStart = true) (hcs : cs ≠ [])
    (hlayout : s.layout cs = .error e)
    (hagree : Agree carriages (.error e) o) : Returned s cs o := by
  refine .alike (fun p hjoins => ?_) ?_
  · cases hjoins with
    | enter _ _ hlayout' =>
      rw [hlayout] at hlayout'
      cases hlayout'
    | here hfalse | piece hfalse =>
      rw [hs] at hfalse
      cases hfalse
  · rwa [run_of_layout_error hcs hlayout]

theorem piece {q : Piece} (hs : s.lineStart = false) (hc : c ≠ '\\')
    (hq : readPiece c r = .ok (q, rest)) (h : Returned (s.take q) rest o) :
    Returned s (c :: r) o := by
  cases h with
  | alike hnone hagree =>
    refine .alike (fun p hjoins => ?_) ?_
    · cases hjoins with
      | enter hs' =>
        rw [hs] at hs'
        cases hs'
      | here => exact hc rfl
      | piece _ hq' hjoins =>
        rw [hq] at hq'
        cases hq'
        exact hnone p hjoins
    · rwa [run_piece hs hq]
  | joined hjoins hline => exact .joined (.piece hs hq hjoins) hline

/-- Where no piece can be read, none can be read before a carriage return either. -/
theorem fault {fault : ScanFault} (h : InStep carriages s s') (hs : s.lineStart = false)
    (hq : readPiece c r = .error fault) {cs' : List Char} (htext : carriages.text (c :: r) cs') :
    Returned s (c :: r) (.error ⟨fault, s'.pos, cs'⟩) := by
  refine .alike (fun p hjoins => ?_) ?_
  · cases hjoins with
    | enter hs' =>
      rw [hs] at hs'
      cases hs'
    | here =>
      rw [readPiece_backslash] at hq
      cases hq
    | piece _ hq' =>
      rw [hq] at hq'
      cases hq'
  · rw [run_piece_error hs hq]
    exact .error h.pos htext

end Returned

/-- What is skipped on a line leaves scanners in step. -/
theorem InStep.skip (h : InStep carriages s s') {text text' : List Char} (htext : '\n' ∉ text)
    (htext' : '\n' ∉ text') :
    InStep carriages { s with pos := s.pos.after text } { s' with pos := s'.pos.after text' } := by
  refine ⟨?_, h.tokens, h.levels, h.nesting, h.lineStart⟩
  change (s.pos.after text).line = (s'.pos.after text').line
  rw [Pos.line_after, Pos.line_after, List.count_eq_zero_of_not_mem htext,
    List.count_eq_zero_of_not_mem htext']
  exact congrArg (· + 0) h.pos

/-- A comment takes the carriage return before its newline. -/
theorem returned_comment (h : InStep carriages s s') (hs : s.lineStart = false) {r : List Char}
    (hr : '\r' ∉ r)
    (ih : ∀ rest, rest.length ≤ r.length → '\r' ∉ rest → ∀ {t t' : Scanner}, InStep carriages t t' →
      Returned t rest (t'.run (crlf rest))) :
    Returned s ('#' :: r) (s'.run ('#' :: crlf r)) := by
  have hs' : s'.lineStart = false := h.lineStart ▸ hs
  obtain ⟨line, t, rfl, hline, ht⟩ := exists_line r
  rw [crlf_append, crlf_eq_self hline]
  obtain rfl | ⟨rest, rfl⟩ := ht
  · have hq := @readPiece_comment line [] hline rfl
    rw [crlf_nil, run_piece hs' hq, run_nil]
    exact .piece hs (by decide) hq (.nil (h.take (.comment line)))
  · have hreturn : '\n' ∉ line ++ ['\r'] := by simp [hline]
    have hq := @readPiece_comment line ('\n' :: rest) hline rfl
    have hq' := @readPiece_comment (line ++ ['\r']) ('\n' :: crlf rest) hreturn rfl
    rw [List.append_assoc, List.singleton_append] at hq'
    have hskip : InStep carriages (s.take (.comment line)) (s'.take (.comment (line ++ ['\r']))) :=
      h.skip (by simpa [Piece.text] using hline) (by simpa [Piece.text] using hreturn)
    rw [crlf_newline, run_piece hs' hq', run_newline (hskip.lineStart ▸ hs)]
    refine .piece hs (by decide) hq (.piece hs (by decide) rfl ?_)
    refine ih rest ?_ (fun hmem => hr ?_) (hskip.take .newline)
    · rw [List.length_append, List.length_cons]
      omega
    · exact List.mem_append_right _ (List.mem_cons_of_mem _ hmem)

/-- A backslash before a carriage return is no joint. -/
theorem returned_backslash (h : InStep carriages s s') (hs : s.lineStart = false) {r : List Char}
    (hr : '\r' ∉ r) : Returned s ('\\' :: r) (s'.run ('\\' :: crlf r)) := by
  have hs' : s'.lineStart = false := h.lineStart ▸ hs
  have hhead : (crlf r).head? ≠ some '\n' := by
    cases r with
    | nil => exact Option.some_ne_none _ ∘ Eq.symm
    | cons d r =>
      by_cases hd : d = '\n'
      · subst hd
        exact fun heq => absurd (Option.some.inj heq) (by decide)
      · rw [crlf_cons hd]
        exact fun heq => hd (Option.some.inj heq)
  have hq' : readPiece '\\' (crlf r) = .error (.unexpectedCharacter '\\') := by
    rw [readPiece_backslash, if_neg hhead]
  rw [run_piece_error hs' hq']
  by_cases hjoint : ∃ rest, r = '\n' :: rest
  · obtain ⟨rest, rfl⟩ := hjoint
    exact .joined (.here hs) h.pos
  · have hq : readPiece '\\' r = .error (.unexpectedCharacter '\\') := by
      rw [readPiece_backslash, if_neg]
      intro heq
      obtain ⟨rest, hrest⟩ := List.head?_eq_some_iff.1 heq
      exact hjoint ⟨rest, hrest⟩
    refine .fault h hs hq ⟨?_, (crlf_cons (by decide) r).symm⟩
    simpa using hr

/-- One piece is read in step, unless it is a joint. -/
theorem returned_piece (h : InStep carriages s s') (hs : s.lineStart = false) {c : Char}
    {r : List Char} (hcs : '\r' ∉ c :: r)
    (ih : ∀ rest, rest.length ≤ r.length → '\r' ∉ rest → ∀ {t t' : Scanner}, InStep carriages t t' →
      Returned t rest (t'.run (crlf rest))) :
    Returned s (c :: r) (s'.run (crlf (c :: r))) := by
  have hs' : s'.lineStart = false := h.lineStart ▸ hs
  obtain ⟨hc, hr⟩ := not_or.1 (List.mem_cons.not.1 hcs)
  by_cases hline : c = '\n'
  · subst hline
    have hskip : InStep carriages s (s'.take (.blank '\r')) :=
      h.skip List.not_mem_nil (List.mem_singleton.not.2 (by decide))
    have hq' : readPiece '\r' ('\n' :: crlf r) = .ok (.blank '\r', '\n' :: crlf r) := rfl
    rw [crlf_newline, run_piece hs' hq', run_newline (hskip.lineStart ▸ hs)]
    exact .piece hs (by decide) rfl (ih r (Nat.le_refl _) hr (hskip.take .newline))
  rw [crlf_cons hline]
  by_cases hcomment : c = '#'
  · subst hcomment
    exact returned_comment h hs hr ih
  by_cases hslash : c = '\\'
  · subst hslash
    exact returned_backslash h hs hr
  by_cases hblank : isBlank c = true
  · have hq : ∀ r', readPiece c r' = .ok (.blank c, r') :=
      fun r' => by simp [readPiece, hline, hblank]
    rw [run_piece hs' (hq _)]
    exact .piece hs hslash (hq _) (ih r (Nat.le_refl _) hr (h.take (.blank c)))
  have hplain : isPlain c = true := by simp_all [isPlain, isBlank]
  have hq' := readPiece_crlf hplain r
  cases hq : readPiece c r with
  | error fault =>
    rw [hq] at hq'
    rw [run_piece_error hs' hq']
    exact .fault h hs hq ⟨hcs, (crlf_cons hline r).symm⟩
  | ok x =>
    obtain ⟨q, rest⟩ := x
    rw [hq] at hq'
    have htext := readPiece_text hq
    have hshorter := readPiece_length hq
    rw [run_piece hs' hq']
    refine .piece hs hslash hq
      (ih rest (Nat.le_of_lt_succ hshorter) (fun hmem => hcs ?_) (h.take q))
    rw [← htext]
    exact List.mem_append_right _ hmem

/-- A text with carriage returns is scanned in step up to the first line that is joined to the
next. -/
theorem InStep.run_crlf {s s' : Scanner} (h : InStep carriages s s') {cs : List Char}
    (hcs : '\r' ∉ cs) :
    Returned s cs (s'.run (crlf cs)) := by
  -- The induction is on the length of the text, since a piece may take any number of characters.
  induction hn : cs.length using Nat.strong_induction_on generalizing s s' cs with
  | h n ih =>
  subst hn
  by_cases hnil : cs = []
  · subst hnil
    rw [crlf_nil, run_nil]
    exact .nil h
  have hlater : ∀ (c : Char) (r : List Char), (c :: r).length ≤ cs.length → ∀ rest : List Char,
      rest.length ≤ r.length → '\r' ∉ rest → ∀ {t t' : Scanner}, InStep carriages t t' →
      Returned t rest (t'.run (crlf rest)) := by
    intro c r hr rest hrest hcr t t' ht
    exact ih rest.length (Nat.lt_of_lt_of_le (Nat.lt_succ_of_le hrest) hr) ht hcr rfl
  by_cases hs : s.lineStart = true
  · have htext : carriages.text cs (crlf cs) := ⟨hcs, rfl⟩
    have hnil' := crlf_ne_nil hnil
    have hlayout := h.layout htext
    have hafter := h.afterBlanks htext
    have hlength := s.length_afterBlanks cs
    generalize ho : s.layout cs = o at hlayout
    generalize ho' : s'.layout (crlf cs) = o' at hlayout
    cases hlayout with
    | error hpos hunread =>
      rw [run_of_layout_error hnil' ho']
      exact .unentered hs hnil ho (.error hpos hunread)
    | @ok s₁ s₁' h₁ =>
      refine .enter hs hnil ho ?_
      rw [run_of_layout hnil' ho', hafter.2]
      cases hrest : s.afterBlanks cs with
      | nil =>
        rw [crlf_nil, run_nil]
        exact .nil h₁
      | cons c r =>
        rw [hrest] at hafter hlength
        exact returned_piece h₁ (lineStart_of_layout ho) hafter.1 (hlater c r hlength)
  · obtain ⟨c, r, rfl⟩ := List.exists_cons_of_ne_nil hnil
    exact returned_piece h (Bool.eq_false_of_not_eq_true hs) hcs (hlater c r (Nat.le_refl _))

/-! ## The line of a fault -/

theorem line_le_of_layout (h : s.layout cs = .ok s') : s.pos.line ≤ s'.pos.line := by
  have henter : s.pos.line ≤ (s.enter cs).pos.line := by
    change s.pos.line ≤ (s.pos.after _).line
    rw [Pos.line_after]
    exact Nat.le_add_right _ _
  cases entered_of_layout h with
  | within => exact Nat.le_refl _
  | blank | indent => exact henter
  | dedent =>
    rw [pos_close]
    exact henter

theorem line_le_of_take (s : Scanner) (q : Piece) : s.pos.line ≤ (s.take q).pos.line := by
  have hpos : (s.take q).pos = s.pos.after q.text := by cases q <;> rfl
  rw [hpos, Pos.line_after]
  exact Nat.le_add_right _ _

/-- A fault is on a line that the scanner has still to read. -/
theorem line_le_of_run {e : ScanError} (h : s.run cs = .error e) : s.pos.line ≤ e.pos.line := by
  fun_induction run s cs with
  | case1 => cases h
  | case2 s cs hcs e' hstep =>
    cases h
    obtain hlayout | ⟨s₁, c, r, fault, hlayout, -, -, rfl⟩ := step_eq_error_iff.1 hstep
    · obtain ⟨-, -, rfl⟩ := error_of_layout hlayout
      change s.pos.line ≤ (s.pos.after _).line
      rw [Pos.line_after]
      exact Nat.le_add_right _ _
    · exact line_le_of_layout hlayout
  | case3 s cs hcs s₁ r₁ hstep _ ih =>
    refine Nat.le_trans ?_ (ih h)
    obtain ⟨s₂, hlayout, ⟨-, rfl, -⟩ | ⟨c, r, q, -, -, rfl⟩⟩ := step_eq_ok_iff.1 hstep
    · exact line_le_of_layout hlayout
    · exact Nat.le_trans (line_le_of_layout hlayout) (s₂.line_le_of_take q)

/-- A fault after a joint is on a later line. -/
theorem JoinsAt.line_lt {p : Pos} {e : ScanError} (h : s.JoinsAt cs p) (he : s.run cs = .error e) :
    p.line < e.pos.line := by
  induction h with
  | here hs =>
    rw [run_piece hs rfl] at he
    exact line_le_of_run he
  | enter _ hcs hlayout _ ih =>
    rw [run_of_layout hcs hlayout] at he
    exact ih he
  | piece hs hq _ ih =>
    rw [run_piece hs hq] at he
    exact ih he

end Scanner

/-- The faults are of the same sort. -/
inductive ScanFault.Kin : ScanFault → ScanFault → Prop
  | unexpectedCharacter (c d : Char) : Kin (.unexpectedCharacter c) (.unexpectedCharacter d)
  | unterminatedString : Kin .unterminatedString .unterminatedString
  | inconsistentDedent : Kin .inconsistentDedent .inconsistentDedent
  | invalidNumber (digits digits' : String) : Kin (.invalidNumber digits) (.invalidNumber digits')

theorem ScanFault.Kin.refl (fault : ScanFault) : Kin fault fault := by
  cases fault <;> constructor

/-- Both texts have tokens of the same kinds, or faults of the same sort on the same line. -/
inductive ScansAlike : Except ScanError (List Token) → Except ScanError (List Token) → Prop
  | tokens {ts ts' : List Token} : kinds ts = kinds ts' → ScansAlike (.ok ts) (.ok ts')
  | fault {e e' : ScanError} : e.fault.Kin e'.fault → e.pos.line = e'.pos.line →
      ScansAlike (.error e) (.error e')

/-- A text is scanned alike with a carriage return before every newline exactly if the scanner never
comes to a joint of two lines. Otherwise the backslash of a joint is at fault. -/
theorem scan_crlf_alike_iff {source : String} (h : '\r' ∉ source.toList) :
    (ScansAlike (scan source) (scan (String.ofList (crlf source.toList))) ↔
      ∀ p, ¬ Scanner.start.JoinsAt source.toList p) ∧
    ∀ p, Scanner.start.JoinsAt source.toList p →
      ∃ p' e, Scanner.start.JoinsAt source.toList p' ∧
        scan (String.ofList (crlf source.toList)) = .error e ∧
        e.fault = .unexpectedCharacter '\\' ∧ e.pos.line = p'.line := by
  have hstep : Scanner.InStep carriages .start .start := ⟨rfl, rfl, rfl, rfl, rfl⟩
  have hreturned := hstep.run_crlf h
  rw [scan, scan, String.toList_ofList]
  generalize Scanner.start.run (crlf source.toList) = o at hreturned
  cases hreturned with
  | alike hnone hagree =>
    refine ⟨iff_of_true ?_ hnone, fun p hp => absurd hp (hnone p)⟩
    generalize Scanner.start.run source.toList = o' at hagree
    cases hagree with
    | ok h₁ =>
      have hkinds : kinds _ = kinds _ := h₁.finish
      rw [kinds, kinds, List.map_reverse, List.map_reverse, List.reverse_inj] at hkinds
      exact .tokens hkinds
    | error hpos _ => exact .fault (.refl _) hpos
  | @joined p p' unread hjoins hline =>
    refine ⟨iff_of_false (fun halike => ?_) fun hnone => hnone p hjoins, fun _ _ => ?_⟩
    · generalize he : Scanner.start.run source.toList = o at halike
      cases o with
      | ok s => cases halike
      | error e =>
        have hlt := hjoins.line_lt he
        cases halike with
        | fault _ heq => exact absurd (heq.trans hline.symm) (Nat.ne_of_gt hlt)
    · exact ⟨p, _, hjoins, rfl, rfl, hline.symm⟩

/-- A sum that goes on after a backslash, in a text with newlines alone. -/
def joinedSum : String := "x = 1 + \\\n    2\n"

/-- With carriage returns the text of a joined line is not scanned any more. -/
theorem scan_crlf_alike_iff_joinedSum :
    '\r' ∉ joinedSum.toList ∧ (scan joinedSum).isOk ∧
      (∃ p, Scanner.start.JoinsAt joinedSum.toList p) ∧
      ¬ ScansAlike (scan joinedSum) (scan (String.ofList (crlf joinedSum.toList))) := by
  have hcr : '\r' ∉ joinedSum.toList := by decide
  have hok : (scan joinedSum).isOk = true := by decide +kernel
  have hfault : (scan (String.ofList (crlf joinedSum.toList))).isOk = false := by decide +kernel
  have hdiffer : ¬ ScansAlike (scan joinedSum) (scan (String.ofList (crlf joinedSum.toList))) := by
    intro halike
    generalize scan joinedSum = o at halike hok
    generalize scan (String.ofList (crlf joinedSum.toList)) = o' at halike hfault
    cases halike with
    | tokens => cases hfault
    | fault => cases hok
  refine ⟨hcr, hok, ?_, hdiffer⟩
  exact not_forall_not.1 fun hnone => hdiffer ((scan_crlf_alike_iff hcr).1.2 hnone)

end Braces
