import Braces.Proofs.LayoutTokens
import Braces.Proofs.Reading.Stmts

/-!
# The shape of programs that are read

What later stages take for granted of a program that was read from text. Where functions and returns
stand comes from the readers of statements, and what nodes look like from the readers of
expressions. That no block is empty does not: the readers accept an indentation that is closed at
once, and only the order of the tokens of a text excludes it.
-/

namespace Braces

/-! ## Statements at any depth -/

mutual

/-- The statements in the blocks of a statement, at any depth. -/
def Stmt.inner : Stmt → List Stmt
  | .ifElse _ body orelse => allStmts body ++ elseStmts orelse
  | .whileLoop _ body | .forLoop _ _ body | .funcDef _ _ body => allStmts body
  | _ => []

/-- The statements of a block, with those in their blocks. -/
def allStmts : List Stmt → List Stmt
  | [] => []
  | s :: rest => s :: (s.inner ++ allStmts rest)

def elseStmts : Option (List Stmt) → List Stmt
  | none => []
  | some body => allStmts body

end

/-- The blocks of a statement itself. -/
def Stmt.blocks : Stmt → List (List Stmt)
  | .ifElse _ body orelse => body :: orelse.toList
  | .whileLoop _ body | .forLoop _ _ body | .funcDef _ _ body => [body]
  | _ => []

def Stmt.isFunction : Stmt → Bool
  | .funcDef _ _ _ => true
  | _ => false

def Stmt.isReturn : Stmt → Bool
  | .ret _ => true
  | _ => false

/-- Text made of plain characters and of pairs of a backslash and another character, without a
newline. -/
inductive Escaped : List Char → Prop
  | nil : Escaped []
  | plain {c : Char} {cs : List Char} : c ≠ '\n' → c ≠ '\\' → Escaped cs → Escaped (c :: cs)
  | pair {c : Char} {cs : List Char} : c ≠ '\n' → Escaped cs → Escaped ('\\' :: c :: cs)

/-- What holds of the programs that are read, beyond what their type says. -/
structure Program.WellShaped (p : Program) : Prop where
  /-- Functions are defined at the top level. -/
  functions : ∀ s ∈ p, ∀ s' ∈ s.inner, s'.isFunction = false
  /-- Only functions return. -/
  returns : ∀ s ∈ p, s.isReturn = false ∧
    (s.isFunction = false → ∀ s' ∈ s.inner, s'.isReturn = false)
  blocks : ∀ s ∈ allStmts p, [] ∉ s.blocks
  ranges : ∀ start stop step, .range start stop step ∈ p.parts → stop ≠ none
  integers : ∀ n, .int n ∈ p.parts → 0 ≤ n
  calls : ∀ name args, .call name args ∈ p.parts → name ≠ "len" ∧ name ≠ "range"
  sums : ∀ l r, .binary .add l r ∈ p.parts → l.isTextual = r.isTextual
  strings : ∀ s, .str s ∈ p.parts → Escaped s.toList

theorem escaped_of_isClosed {cs : List Char} (h : Cpp.isClosed cs = true) : Escaped cs := by
  fun_induction Cpp.isClosed cs with
  | case1 => exact .nil
  | case2 | case3 => cases h
  | case4 d r hc ih =>
    simp only [Bool.and_eq_true, decide_eq_true_eq] at h
    exact .pair h.1 (ih h.2)
  | case5 c r hc hslash ih => exact .plain hc hslash (ih h)

theorem mem_allStmts {ss : List Stmt} {s' : Stmt} :
    s' ∈ allStmts ss ↔ ∃ s ∈ ss, s' = s ∨ s' ∈ s.inner := by
  induction ss with
  | nil => simp [allStmts]
  | cons s ss ih => simp [allStmts, ih, or_assoc]

theorem mem_allStmts_singleton {s s' : Stmt} : s' ∈ allStmts [s] ↔ s' = s ∨ s' ∈ s.inner := by
  simp [allStmts]

theorem Stmt.inner_eq (s : Stmt) : s.inner = s.blocks.flatMap allStmts := by
  cases s with
  | ifElse cond body orelse =>
    cases orelse <;> simp [Stmt.inner, Stmt.blocks, elseStmts]
  | _ => simp [Stmt.inner, Stmt.blocks]

section
variable {P : Stmt → Prop} {s : Stmt} {ss ss' : List Stmt}

theorem forall_allStmts_append : (∀ s ∈ allStmts (ss ++ ss'), P s) ↔
    (∀ s ∈ allStmts ss, P s) ∧ ∀ s ∈ allStmts ss', P s := by
  simp only [mem_allStmts, List.mem_append]
  grind

theorem forall_allStmts_iff :
    (∀ s ∈ allStmts ss, P s) ↔ ∀ s ∈ ss, ∀ s' ∈ allStmts [s], P s' := by
  simp only [mem_allStmts, List.mem_singleton]
  grind

/-- What holds of a statement and of those in its blocks holds at any depth. -/
theorem forall_allStmts_of_blocks (hs : P s)
    (hblocks : ∀ body ∈ s.blocks, ∀ s ∈ allStmts body, P s) :
    ∀ s' ∈ allStmts [s], P s' := by
  intro s' hs'
  obtain rfl | hinner := mem_allStmts_singleton.mp hs'
  · exact hs
  · rw [Stmt.inner_eq] at hinner
    obtain ⟨body, hbody, hmem⟩ := List.mem_flatMap.mp hinner
    exact hblocks body hbody s' hmem

end

/-! ## Statements that are read -/

/-- A statement that may stand within a function or not. -/
structure Stmt.FitsIn (f : Bool) (s : Stmt) : Prop where
  function : s.isFunction = false
  return_ : f = false → s.isReturn = false
  blocks : [] ∉ s.blocks

/-- Statements that may, at any depth. -/
def BlockFits (f : Bool) (ss : List Stmt) : Prop := ∀ s ∈ allStmts ss, s.FitsIn f

section
variable {f : Bool} {s : Stmt}

/-- A statement fits if its blocks do and have statements. -/
theorem blockFits_of_blocks (hfunction : s.isFunction = false)
    (hreturn : f = false → s.isReturn = false)
    (hblocks : ∀ body ∈ s.blocks, body ≠ [] ∧ BlockFits f body) : BlockFits f [s] :=
  forall_allStmts_of_blocks ⟨hfunction, hreturn, fun hnil => (hblocks [] hnil).1 rfl⟩
    fun body hbody => (hblocks body hbody).2

theorem blockFits_of_storeTo? {target value : Expr} (h : storeTo? target value = some s) :
    BlockFits f [s] := by
  unfold storeTo? at h
  split at h
  · cases h
    exact blockFits_of_blocks rfl (fun _ => rfl) (List.forall_mem_nil _)
  · cases h
    exact blockFits_of_blocks rfl (fun _ => rfl) (List.forall_mem_nil _)
  · cases h

theorem blockFits_of_tupleAssign {taken : List String} {n : Nat} {targets values : List Expr}
    {r : Numbered (List Stmt)} (h : tupleAssign taken n targets values = .ok r) :
    BlockFits f r.1 := by
  refine forall_allStmts_iff.mpr ?_
  intro s hs
  obtain ⟨x, -, v, -, rfl⟩ | ⟨t, -, x, -, hstore⟩ := mem_tupleAssign h s hs
  · exact blockFits_of_blocks rfl (fun _ => rfl) (List.forall_mem_nil _)
  · exact blockFits_of_storeTo? hstore

end

theorem Filled.ne_nil {ks : List Kind} {body : List Stmt} (h : Filled ks body)
    (hks : ¬ [.indent, .dedent] <:+: ks) : body ≠ [] :=
  fun hnil => hks (h hnil)

theorem Formed.blockFits {taken : List String} {ks : List Kind} {f : Bool} {n m : Nat}
    {ss : List Stmt} (h : Formed taken ks f n ss m) (hks : ¬ [.indent, .dedent] <:+: ks) :
    BlockFits f ss := by
  induction h with
  | none => exact List.forall_mem_nil _
  | append _ _ ih ih' => exact forall_allStmts_append.mpr ⟨ih, ih'⟩
  | store _ _ hs | update _ _ hs => exact blockFits_of_storeTo? hs
  | unpack _ _ hr => exact blockFits_of_tupleAssign hr
  | eval | print | pass | break_ | continue_ =>
    exact blockFits_of_blocks rfl (fun _ => rfl) (List.forall_mem_nil _)
  | ret => exact blockFits_of_blocks rfl nofun (List.forall_mem_nil _)
  | ifOnly _ hfilled _ ih | whileLoop _ hfilled _ ih | forLoop _ _ hfilled _ ih =>
    apply blockFits_of_blocks rfl (fun _ => rfl)
    exact List.forall_mem_singleton.mpr ⟨hfilled.ne_nil hks, ih⟩
  | ifElse _ hfilled _ hfilled' _ ih ih' =>
    apply blockFits_of_blocks rfl (fun _ => rfl)
    refine List.forall_mem_cons.mpr ⟨⟨hfilled.ne_nil hks, ih⟩, ?_⟩
    exact List.forall_mem_singleton.mpr ⟨hfilled'.ne_nil hks, ih'⟩

/-- A statement at the top level: a function, or one that may stand outside of functions. -/
inductive Stmt.FitsTop : Stmt → Prop
  | function {name params body} :
      body ≠ [] → BlockFits true body → FitsTop (.funcDef name params body)
  | free {s} : BlockFits false [s] → FitsTop s

theorem FormedProgram.fitsTop {taken : List String} {ks : List Kind} {n : Nat} {p : Program}
    (h : FormedProgram taken ks n p) (hks : ¬ [.indent, .dedent] <:+: ks) : ∀ s ∈ p, s.FitsTop := by
  induction h with
  | done => exact List.forall_mem_nil _
  | function _ hfilled hbody _ ih =>
    exact List.forall_mem_cons.mpr ⟨.function (hfilled.ne_nil hks) (hbody.blockFits hks), ih⟩
  | free hss _ ih =>
    refine List.forall_mem_append.mpr ⟨?_, ih⟩
    intro s hs
    exact .free (forall_allStmts_iff.mp (hss.blockFits hks) s hs)

namespace Stmt.FitsTop

variable {s s' : Stmt}

theorem inner (h : s.FitsTop) (hs' : s' ∈ s.inner) : s'.FitsIn true := by
  cases h with
  | function _ hbody => exact hbody s' hs'
  | free hs =>
    have hfits := hs s' (mem_allStmts_singleton.mpr (.inr hs'))
    exact ⟨hfits.function, nofun, hfits.blocks⟩

theorem blocks (h : s.FitsTop) : [] ∉ s.blocks := by
  cases h with
  | function hne => exact fun hnil => hne (List.mem_singleton.mp hnil).symm
  | free hs => exact (hs s (mem_allStmts_singleton.mpr (.inl rfl))).blocks

theorem isReturn (h : s.FitsTop) (hs' : s' = s ∨ s.isFunction = false ∧ s' ∈ s.inner) :
    s'.isReturn = false := by
  cases h with
  | function =>
    obtain rfl | ⟨hfunction, -⟩ := hs'
    · rfl
    · cases hfunction
  | free hs =>
    have hmem : s' ∈ allStmts [s] := mem_allStmts_singleton.mpr (hs'.imp_right And.right)
    exact (hs s' hmem).return_ rfl

end Stmt.FitsTop

/-! ## Programs that are read -/

/-- No block of a text is closed right where it is opened. -/
theorem not_indent_dedent {source : String} {ts : List Token} (h : scan source = .ok ts) :
    ¬ [.indent, .dedent] <:+: kinds (beforeEnd ts) := by
  intro hpair
  have hinside : kinds (beforeEnd ts) <:+: kinds ts :=
    List.IsInfix.map _ (List.takeWhile_prefix _).isInfix
  exact ((wellLaid_scan h).opened .dedent (hpair.trans hinside)).2.1 rfl

/-- Every program that is read from text is well shaped. -/
theorem readSource_wellShaped {source : String} {p : Program} (h : readSource source = .ok p) :
    p.WellShaped := by
  obtain ⟨ts, hts, hp⟩ := formedProgram_readSource h
  have htop := hp.fitsTop (not_indent_dedent hts)
  have hproper : ∀ e ∈ p.parts, e.isProper = true := fun e he => isProper_of_readSource h he
  constructor
  case functions =>
    intro s hs s' hs'
    exact ((htop s hs).inner hs').function
  case returns =>
    intro s hs
    exact ⟨(htop s hs).isReturn (.inl rfl), fun hf s' hs' => (htop s hs).isReturn (.inr ⟨hf, hs'⟩)⟩
  case blocks =>
    intro s' hs'
    obtain ⟨s, hs, rfl | hinner⟩ := mem_allStmts.mp hs'
    · exact (htop _ hs).blocks
    · exact ((htop s hs).inner hinner).blocks
  case ranges =>
    rintro start stop step hmem rfl
    cases hproper _ hmem
  case integers =>
    intro n hmem
    exact of_decide_eq_true (hproper _ hmem)
  case calls =>
    intro name args hmem
    exact (Expr.isProper_call.mp (hproper _ hmem)).2
  case sums =>
    intro l r hmem
    exact Expr.isProper_binary.mp (hproper _ hmem) rfl
  case strings =>
    intro s hmem
    exact escaped_of_isClosed (hproper _ hmem)

/-- A function that returns from both branches, and a sum with text in a loop within a loop. -/
def greeting : String :=
  "def greet(name):\n  if name == 'it\\'s':\n    return 'hi ' + name\n  else: return name\n" ++
    "for i in range(3):\n  while True:\n    print(greet('no. ' + i)); break\n"

theorem readSource_wellShaped_greeting :
    ∃ p, readSource greeting = .ok p ∧ (allStmts p).length = 8 ∧ p.parts.length = 17 ∧
      p.WellShaped := by
  have hread : (readSource greeting).toOption.map
      (fun p => ((allStmts p).length, (Program.parts p).length)) =
      some (8, 17) := by
    decide +kernel
  obtain ⟨p, hp, hlengths⟩ := exists_of_toOption_map hread
  obtain ⟨hstmts, hparts⟩ := Prod.mk.inj hlengths
  exact ⟨p, hp, hstmts, hparts, readSource_wellShaped hp⟩

end Braces
