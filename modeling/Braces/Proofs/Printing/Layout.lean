import Braces.Proofs.Printing.Legible

/-!
# The lines of programs

Every line of a program is one that the scanner takes apart. The tokens of layout are those that the
nesting of the statements asks for: each block is an indentation, its statements and the end of the
indentation.
-/

namespace Braces

/-! ## Every line is written -/

theorem Piece.Legible.lexemes_ne_nil {ps : List Piece} (h : Legible ps) (hopens : Opens ps) :
    lexemes ps ≠ [] := by
  obtain ⟨c, r, heq, hc⟩ := hopens
  cases ps with
  | nil => cases heq
  | cons p ps =>
    obtain ⟨hp, -, -⟩ := h.readable [] rfl
    cases hp with
    | space =>
      cases heq
      cases hc
    | keyword | symbol | name | bool | int | str => exact List.cons_ne_nil _ _

theorem Line.isWritten {ps : List Piece} (h : Piece.Legible ps) (hopens : Piece.Opens ps)
    (depth : Nat) : (⟨depth, ps⟩ : Line).IsWritten := by
  refine ⟨fun rest => h.readable _ rfl, ?_, h.lexemes_ne_nil hopens, h.balanced 0⟩
  obtain ⟨c, r, heq, hc⟩ := hopens
  simp only [Piece.isOpening, Bool.and_eq_true] at hc
  exact ⟨c, r, heq, hc.1.1⟩

namespace Stmt

variable {style : Style} {top inFunction : Bool}

theorem isWritten_head {s : Stmt} (h : s.isSource top inFunction = true) (k : Keyword)
    (depth : Nat) : (⟨depth, s.head style k⟩ : Line).IsWritten :=
  Line.isWritten (legible_head h) (opens_head h) depth

theorem isWritten_elseHead (depth : Nat) : (⟨depth, elseHead⟩ : Line).IsWritten := by
  refine Line.isWritten ?_ (.keyword .else_ _) depth
  exact .before (.keyword .else_) (fun _ => rfl) (.single (.symbol .colon) fun _ => rfl) rfl

mutual

theorem isWritten_lines : ∀ {s : Stmt} {top inFunction : Bool} {k : Keyword} {depth : Nat},
    s.isSource top inFunction = true → ∀ l ∈ s.lines style k depth, l.IsWritten
  | .ifElse cond body orelse, _, _, k, depth, h => by
    refine List.forall_mem_cons.mpr ⟨isWritten_head h k depth, ?_⟩
    simp only [isSource, Bool.and_eq_true] at h
    exact List.forall_mem_append.mpr ⟨isWritten_linesOf h.1.2, isWritten_elseLines h.2⟩
  | .whileLoop cond body, _, _, k, depth, h => by
    refine List.forall_mem_cons.mpr ⟨isWritten_head h k depth, ?_⟩
    simp only [isSource, Bool.and_eq_true] at h
    exact isWritten_linesOf h.2
  | .forLoop name iterable body, _, _, k, depth, h => by
    refine List.forall_mem_cons.mpr ⟨isWritten_head h k depth, ?_⟩
    simp only [isSource, Bool.and_eq_true] at h
    exact isWritten_linesOf h.2
  | .funcDef name params body, _, _, k, depth, h => by
    refine List.forall_mem_cons.mpr ⟨isWritten_head h k depth, ?_⟩
    simp only [isSource, Bool.and_eq_true] at h
    exact isWritten_linesOf h.2
  | .assign _ _, _, _, k, depth, h | .assignAt _ _ _, _, _, k, depth, h
  | .print _, _, _, k, depth, h
  | .ret _, _, _, k, depth, h | .eval _, _, _, k, depth, h | .pass, _, _, k, depth, h
  | .break_, _, _, k, depth, h | .continue_, _, _, k, depth, h =>
    List.forall_mem_singleton.mpr (isWritten_head h k depth)

theorem isWritten_linesOf : ∀ {ss : List Stmt} {top inFunction : Bool} {k : Keyword} {depth : Nat},
    allSource top inFunction ss = true → ∀ l ∈ linesOf style k depth ss, l.IsWritten
  | [], _, _, _, _, _ => nofun
  | _ :: _, _, _, _, _, h => by
    simp only [allSource, Bool.and_eq_true] at h
    exact List.forall_mem_append.mpr ⟨isWritten_lines h.1, isWritten_linesOf h.2⟩

theorem isWritten_elseLines : ∀ {o : Option (List Stmt)} {inFunction : Bool} {depth : Nat},
    elseSource inFunction o = true → ∀ l ∈ elseLines style depth o, l.IsWritten
  | none, _, _, _ => nofun
  | some body, _, depth, h => by
    simp only [elseSource, Bool.and_eq_true] at h
    rw [elseLines]
    split
    · exact isWritten_linesOf h.2
    · exact List.forall_mem_cons.mpr ⟨isWritten_elseHead depth, isWritten_linesOf h.2⟩

end

end Stmt

/-! ## Blocks nest -/

/-- Lines that may follow lines of some depth, or of one less, or of more. -/
def Line.Continues (depth : Nat) (lines : List Line) : Prop :=
  ∀ current, depth ≤ current + 1 → Descends current lines

theorem Line.Continues.deeper {depth : Nat} {lines : List Line} (h : Continues depth lines) :
    Continues (depth + 1) lines :=
  fun current hle => h current (Nat.le_of_succ_le hle)

/-- A line and what follows it. -/
theorem Line.Continues.cons {depth : Nat} {ps : List Piece} {lines : List Line}
    (h : Continues (depth + 1) lines) : Continues depth (⟨depth, ps⟩ :: lines) :=
  fun _ hle => ⟨hle, h depth (Nat.le_refl _)⟩

namespace Stmt

variable {style : Style}

mutual

theorem continues_lines : ∀ (s : Stmt) {k : Keyword} {depth : Nat} {rest : List Line},
    Line.Continues depth rest → Line.Continues depth (s.lines style k depth ++ rest)
  | .ifElse _ body orelse, _, _, _, h => by
    rw [lines, List.cons_append, List.append_assoc]
    exact .cons (continues_linesOf body (continues_elseLines orelse h).deeper)
  | .whileLoop _ body, _, _, _, h | .forLoop _ _ body, _, _, _, h | .funcDef _ _ body, _, _, _, h =>
    .cons (continues_linesOf body h.deeper)
  | .assign _ _, _, _, _, h | .assignAt _ _ _, _, _, _, h | .print _, _, _, _, h
  | .ret _, _, _, _, h
  | .eval _, _, _, _, h | .pass, _, _, _, h | .break_, _, _, _, h | .continue_, _, _, _, h =>
    .cons h.deeper

theorem continues_linesOf : ∀ (ss : List Stmt) {k : Keyword} {depth : Nat} {rest : List Line},
    Line.Continues depth rest → Line.Continues depth (linesOf style k depth ss ++ rest)
  | [], _, _, _, h => h
  | s :: ss, _, _, _, h => by
    rw [linesOf, List.append_assoc]
    exact continues_lines s (continues_linesOf ss h)

theorem continues_elseLines : ∀ (o : Option (List Stmt)) {depth : Nat} {rest : List Line},
    Line.Continues depth rest → Line.Continues depth (elseLines style depth o ++ rest)
  | none, _, _, h => h
  | some body, _, _, h => by
    rw [elseLines]
    split
    · exact continues_linesOf body h
    · exact .cons (continues_linesOf body h.deeper)

end

end Stmt

/-! ## Tokens of blocks -/

/-- The tokens of a block. -/
def blockKinds (ks : List Kind) : List Kind := .newline :: .indent :: (ks ++ [.dedent])

namespace Stmt

mutual

/-- The tokens of a statement. A condition starts with the given keyword. -/
def tokenKinds (style : Style) (k : Keyword) : Stmt → List Kind
  | .ifElse cond body orelse =>
    Piece.lexemes (head style k (.ifElse cond body orelse)) ++
      (blockKinds (tokenKindsOf style .if_ body) ++ elseKinds style orelse)
  | .whileLoop cond body =>
    Piece.lexemes (head style k (.whileLoop cond body)) ++ blockKinds (tokenKindsOf style .if_ body)
  | .forLoop name iterable body =>
    Piece.lexemes (head style k (.forLoop name iterable body)) ++
      blockKinds (tokenKindsOf style .if_ body)
  | .funcDef name params body =>
    Piece.lexemes (head style k (.funcDef name params body)) ++
      blockKinds (tokenKindsOf style .if_ body)
  | s => Piece.lexemes (head style k s) ++ [.newline]

def tokenKindsOf (style : Style) (k : Keyword) : List Stmt → List Kind
  | [] => []
  | s :: rest => s.tokenKinds style k ++ tokenKindsOf style k rest

def elseKinds (style : Style) : Option (List Stmt) → List Kind
  | none => []
  | some body =>
    if isChained style body then tokenKindsOf style .elif body
    else Piece.lexemes elseHead ++ blockKinds (tokenKindsOf style .if_ body)

end

end Stmt

/-- The first of these lines is no deeper than this. -/
def Line.StartsBy (depth : Nat) (lines : List Line) : Prop := ∀ l ∈ lines.head?, l.depth ≤ depth

namespace Line

variable {depth : Nat} {lines : List Line}

theorem StartsBy.deeper (h : StartsBy depth lines) : StartsBy (depth + 1) lines :=
  fun l hl => Nat.le_succ_of_le (h l hl)

theorem startsBy_cons (depth : Nat) (ps : List Piece) (rest : List Line) :
    StartsBy depth (⟨depth, ps⟩ :: rest) := by
  rintro l ⟨⟩
  exact Nat.le_refl depth

/-- What is no deeper than a block ends it. -/
theorem layoutKinds_succ (h : StartsBy depth lines) :
    layoutKinds (depth + 1) lines = .dedent :: layoutKinds depth lines := by
  cases lines with
  | nil => exact List.replicate_succ
  | cons l rest =>
    have hle : l.depth ≤ depth := h l rfl
    have hentering : Scanner.entering (depth + 1) l.depth =
        .dedent :: Scanner.entering depth l.depth := by
      rw [Scanner.entering, Scanner.entering, if_neg (by omega), if_neg (by omega),
        Nat.succ_sub hle, List.replicate_succ]
    rw [layoutKinds, layoutKinds, hentering, List.cons_append]

theorem entering_self (depth : Nat) : Scanner.entering depth depth = [] := by
  rw [Scanner.entering, if_neg (Nat.lt_irrefl _), Nat.sub_self, List.replicate_zero]

theorem entering_succ (depth : Nat) : Scanner.entering depth (depth + 1) = [.indent] :=
  if_pos (Nat.lt_succ_self depth)

end Line

namespace Stmt

open Line

variable {style : Style}

theorem startsBy_lines (s : Stmt) (k : Keyword) (depth : Nat) (rest : List Line) :
    StartsBy depth (s.lines style k depth ++ rest) := by
  cases s <;> exact startsBy_cons _ _ _

theorem startsBy_linesOf (ss : List Stmt) {k : Keyword} {depth : Nat} {rest : List Line}
    (h : StartsBy depth rest) : StartsBy depth (linesOf style k depth ss ++ rest) := by
  cases ss with
  | nil => exact h
  | cons s ss =>
    rw [linesOf, List.append_assoc]
    exact startsBy_lines s k depth _

theorem startsBy_elseLines (o : Option (List Stmt)) {depth : Nat} {rest : List Line}
    (h : StartsBy depth rest) : StartsBy depth (elseLines style depth o ++ rest) := by
  cases o with
  | none => exact h
  | some body =>
    rw [elseLines]
    split
    · exact startsBy_linesOf body h
    · exact startsBy_cons _ _ _

/-- A line and what follows it, at any depth. -/
theorem layoutKinds_cons (current depth : Nat) (ps : List Piece) (rest : List Line) :
    layoutKinds current (⟨depth, ps⟩ :: rest) =
      Scanner.entering current depth ++ (Piece.lexemes ps ++ .newline :: layoutKinds depth rest) :=
  rfl

mutual

theorem layoutKinds_lines : ∀ {s : Stmt} {top inFunction : Bool} {k : Keyword} {depth : Nat}
    {rest : List Line} (current : Nat), s.isSource top inFunction = true → StartsBy depth rest →
    layoutKinds current (s.lines style k depth ++ rest) =
      Scanner.entering current depth ++ (s.tokenKinds style k ++ layoutKinds depth rest)
  | .ifElse cond body orelse, _, _, k, depth, rest, current, h, hrest => by
    simp only [isSource, Bool.and_eq_true] at h
    rw [lines, tokenKinds, List.cons_append, List.append_assoc, layoutKinds_cons,
      layoutKinds_block h.1.1.2 h.1.2 (startsBy_elseLines orelse hrest),
      layoutKinds_elseLines h.2 hrest]
    simp [blockKinds]
  | .whileLoop cond body, _, _, k, depth, rest, current, h, hrest => by
    simp only [isSource, Bool.and_eq_true] at h
    rw [lines, tokenKinds, List.cons_append, layoutKinds_cons, layoutKinds_block h.1.2 h.2 hrest]
    simp [blockKinds]
  | .forLoop name iterable body, _, _, k, depth, rest, current, h, hrest => by
    simp only [isSource, Bool.and_eq_true] at h
    rw [lines, tokenKinds, List.cons_append, layoutKinds_cons, layoutKinds_block h.1.2 h.2 hrest]
    simp [blockKinds]
  | .funcDef name params body, _, _, k, depth, rest, current, h, hrest => by
    simp only [isSource, Bool.and_eq_true] at h
    rw [lines, tokenKinds, List.cons_append, layoutKinds_cons, layoutKinds_block h.1.2 h.2 hrest]
    simp [blockKinds]
  | .assign _ _, _, _, _, _, _, _, _, _ | .assignAt _ _ _, _, _, _, _, _, _, _, _
  | .print _, _, _, _, _, _, _, _, _ | .ret _, _, _, _, _, _, _, _, _
  | .eval _, _, _, _, _, _, _, _, _ | .pass, _, _, _, _, _, _, _, _
  | .break_, _, _, _, _, _, _, _, _ | .continue_, _, _, _, _, _, _, _, _ => by
    simp [lines, tokenKinds, layoutKinds_cons]

theorem layoutKinds_linesOf : ∀ {ss : List Stmt} {top inFunction : Bool} {k : Keyword} {depth : Nat}
    {rest : List Line}, allSource top inFunction ss = true → StartsBy depth rest →
    layoutKinds depth (linesOf style k depth ss ++ rest) =
      tokenKindsOf style k ss ++ layoutKinds depth rest
  | [], _, _, _, _, _, _, _ => rfl
  | s :: ss, _, _, k, depth, rest, h, hrest => by
    simp only [allSource, Bool.and_eq_true] at h
    rw [linesOf, List.append_assoc, layoutKinds_lines depth h.1 (startsBy_linesOf ss hrest),
      layoutKinds_linesOf h.2 hrest, entering_self, tokenKindsOf, List.append_assoc,
      List.nil_append]

/-- A block that is not empty opens and closes an indentation. -/
theorem layoutKinds_block : ∀ {ss : List Stmt} {inFunction : Bool} {depth : Nat} {rest : List Line},
    (!ss.isEmpty) = true → allSource false inFunction ss = true → StartsBy depth rest →
    layoutKinds depth (linesOf style .if_ (depth + 1) ss ++ rest) =
      .indent :: (tokenKindsOf style .if_ ss ++ .dedent :: layoutKinds depth rest)
  | s :: ss, _, depth, rest, _, h, hrest => by
    simp only [allSource, Bool.and_eq_true] at h
    rw [linesOf, List.append_assoc, layoutKinds_lines depth h.1 (startsBy_linesOf ss hrest.deeper),
      layoutKinds_linesOf h.2 hrest.deeper, layoutKinds_succ hrest, entering_succ, tokenKindsOf,
      List.append_assoc, List.singleton_append]

theorem layoutKinds_elseLines : ∀ {o : Option (List Stmt)} {inFunction : Bool} {depth : Nat}
    {rest : List Line}, elseSource inFunction o = true → StartsBy depth rest →
    layoutKinds depth (elseLines style depth o ++ rest) =
      elseKinds style o ++ layoutKinds depth rest
  | none, _, _, _, _, _ => rfl
  | some body, _, depth, rest, h, hrest => by
    simp only [elseSource, Bool.and_eq_true] at h
    rw [elseLines, elseKinds]
    split
    · exact layoutKinds_linesOf h.2 hrest
    · rw [List.cons_append, layoutKinds_cons, layoutKinds_block h.1 h.2 hrest, entering_self]
      simp [blockKinds]

end

end Stmt

/-- The text of a program is scanned into its tokens. -/
theorem scan_text (style : Style) {p : Program} (h : p.isSource = true) :
    ∃ ts, scan (p.text style) = .ok ts ∧ kinds ts = Stmt.tokenKindsOf style .if_ p ++ [.eof] ∧
      .eof ∉ Stmt.tokenKindsOf style .if_ p := by
  have hwritten : ∀ l ∈ Stmt.linesOf style .if_ 0 p, l.IsWritten := Stmt.isWritten_linesOf h
  have hcontinues : Line.Continues 0 (Stmt.linesOf style .if_ 0 p ++ []) :=
    Stmt.continues_linesOf p fun _ _ => trivial
  have hkinds : Line.layoutKinds 0 (Stmt.linesOf style .if_ 0 p ++ []) =
      Stmt.tokenKindsOf style .if_ p ++ Line.layoutKinds 0 [] := Stmt.layoutKinds_linesOf h nofun
  have hnone : Line.layoutKinds 0 [] = [] := rfl
  rw [List.append_nil] at hcontinues
  rw [List.append_nil, hnone, List.append_nil] at hkinds
  obtain ⟨ts, hscan, hts⟩ := scan_lines hwritten (hcontinues 0 (Nat.zero_le _))
  rw [hkinds] at hts
  exact ⟨ts, hscan, hts, hkinds ▸ Line.eof_notMem_layoutKinds hwritten 0⟩

end Braces
