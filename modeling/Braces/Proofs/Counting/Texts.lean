import Braces.Proofs.Counting.Headers
import Braces.Proofs.Lines.Texts

/-!
# The text of a head and what it is read as

`Read R s x` says that a text is cut into lexemes that a rule of the grammar reads as `x`. Texts
that are put together as the printer does it are read as what their parts are read as. The
comparison of a counter with a bound needs a bound of a higher level than the comparison.
-/

namespace Braces.Cpp

/-- What a text is read as by a rule of the grammar, wherever a number may end after it. -/
def Read {α : Type} (R : List Lexeme → α → Prop) (s : String) (x : α) : Prop :=
  ∃ ts, Spells endsNumber s.toList ts ∧ R ts x

theorem Read.lower {j k : Nat} {s : String} {t : Tree} (h : Read (Derives k) s t) (hk : k ≤ 8)
    (hjk : j ≤ k) : Read (Derives j) s t := by
  obtain ⟨ts, hts, ht⟩ := h
  exact ⟨ts, hts, ht.lower hk hjk⟩

theorem Read.test {k : Nat} {s : String} {t : Tree} (h : Read (Derives k) s t) (hk : k ≤ 8)
    (hpos : 1 ≤ k) : Read ReadsTest s (.plain t) := by
  obtain ⟨ts, hts, ht⟩ := h.lower hk hpos
  exact ⟨ts, hts, .plain ht⟩

/-! ## Marks between the parts -/

theorem spells_blank : Spells anything [' '] [] := fun rest _ => lex_blank rfl rest

theorem spells_divider : Spells anything [';', ' '] [.op ";"] := by
  intro rest _
  have h : lex (';' :: ' ' :: rest) = .op ";" :: lex (' ' :: rest) :=
    lex_cons (by simp [lexeme, punctuators, isWordChar, Lexeme.ofPunctuator])
  exact h.trans (congrArg _ (lex_blank rfl rest))

theorem spells_increment : Spells anything ['+', '+'] [.op "++"] := fun rest _ =>
  lex_cons (by simp [lexeme, punctuators, isWordChar, Lexeme.ofPunctuator])

/-- The marks that stand between blanks, other than operators of expressions. -/
def spacedMarks : List String := ["=", "+=", "?", ":"]

theorem spells_spaced {s : String} (hs : s ∈ spacedMarks) :
    Spells anything (' ' :: (s.toList ++ [' '])) [.op s] := by
  intro rest _
  have hmark : lex (s.toList ++ ' ' :: rest) = .op s :: lex (' ' :: rest) := by
    simp only [spacedMarks, List.mem_cons, List.not_mem_nil, or_false] at hs
    obtain rfl | rfl | rfl | rfl := hs <;>
      simp only [String.reduceToList, List.cons_append, List.nil_append] <;>
      exact lex_cons (by simp [lexeme, punctuators, isWordChar, Lexeme.ofPunctuator])
  calc lex (' ' :: (s.toList ++ [' ']) ++ rest)
      = lex (s.toList ++ ' ' :: rest) := by
        rw [List.cons_append, lex_blank rfl, List.append_assoc]; rfl
    _ = .op s :: lex rest := by rw [hmark, lex_blank rfl]

theorem spells_around {fit : Char → Bool} {s : String} {cs ds : List Char} {ts us : List Lexeme}
    (hs : s ∈ spacedMarks) (hl : Spells fit cs ts) (hfit : fit ' ' = true)
    (hr : Spells endsNumber ds us) :
    Spells endsNumber (cs ++ (' ' :: (s.toList ++ [' ']) ++ ds)) (ts ++ .op s :: us) :=
  hl.append ((spells_spaced hs).before hr) hfit

/-! ## Names -/

theorem hiddenName_not_mem_keywords (stem : Stem) (n : Nat) : hiddenName stem n ∉ keywords := by
  have hkeywords : ∀ w ∈ keywords, "py2cpp_".toList.isPrefixOf w.toList = false := by
    decide +kernel
  intro hmem
  have hfalse := hkeywords _ hmem
  rw [toList_hiddenName, List.isPrefixOf_iff_prefix.mpr (List.prefix_append _ _)] at hfalse
  cases hfalse

theorem Name.isOperand : ∀ name : Name, (Lexeme.word name.text).isOperand = true
  | .source name => isOperand_spell name
  | .hidden stem n => by
    have hkeyword := hiddenName_not_mem_keywords stem n
    have hvector : hiddenName stem n ≠ "vector" := by
      intro heq
      have hhead := congrArg (fun s : String => s.toList.head?) heq
      simp [toList_hiddenName] at hhead
    simp [Name.text, Lexeme.isOperand, hkeyword, hvector]

/-- The tree of a variable. -/
def Name.tree (name : Name) : Tree := .atom (.word name.text)

theorem Name.Plain.spells {name : Name} (h : name.Plain) :
    Spells endsNumber (Expr.var name).text.toList [.word name.text] :=
  (spells_of_isWord h.isWord).narrow fun _ => endsWord_of_endsNumber

theorem Name.Plain.read {name : Name} (h : name.Plain) {k : Nat} (hk : k ≤ 8) :
    Read (Derives k) (Expr.var name).text name.tree :=
  ⟨[.word name.text], h.spells, (Derives.atom name.isOperand).lower (by omega) hk⟩

/-! ## Conditions -/

section Conditions
variable {left right cond yes no : Expr} {l r c y n : Tree}

theorem spells_binary (op : BinOp) {ts us : List Lexeme}
    (hts : Spells endsNumber left.text.toList ts) (hus : Spells endsNumber right.text.toList us) :
    Spells endsNumber (Expr.binary op left right).text.toList (ts ++ .op op.cppSymbol :: us) := by
  have htext : (Expr.binary op left right).text.toList =
      left.text.toList ++ (' ' :: (op.cppSymbol.toList ++ [' ']) ++ right.text.toList) := by
    simp [Expr.text]
  rw [htext]
  exact spells_infix op hts hus

theorem read_binary (op : BinOp) (hl : Read (Derives op.level) left.text l)
    (hr : Read (Derives (op.level + 1)) right.text r) :
    Read (Derives op.level) (Expr.binary op left right).text (.binary op.cppSymbol l r) := by
  obtain ⟨ts, hts, hl⟩ := hl
  obtain ⟨us, hus, hr⟩ := hr
  exact ⟨_, spells_binary op hts hus, .binary op.level?_cppSymbol hl hr⟩

theorem read_choose (hc : Read (Derives 1) cond.text c) (hy : Read (Derives 1) yes.text y)
    (hn : Read (Derives 1) no.text n) :
    Read ReadsTest (Expr.group (.choose cond yes no)).text (.choose c y n) := by
  obtain ⟨cs, hcs, hc⟩ := hc
  obtain ⟨ys, hys, hy⟩ := hy
  obtain ⟨ns, hns, hn⟩ := hn
  have htext : (Expr.group (.choose cond yes no)).text.toList =
      '(' :: (cond.text.toList ++ (' ' :: ("?".toList ++ [' ']) ++
        (yes.text.toList ++ (' ' :: (":".toList ++ [' ']) ++ no.text.toList))) ++ [')']) := by
    simp [Expr.text]
  have hchoice := spells_around (s := "?") (by decide) hcs rfl
    (spells_around (s := ":") (by decide) hys rfl hns)
  have hlexemes : Lexeme.openParen ::
      (cs ++ .op "?" :: (ys ++ .op ":" :: ns) ++ [.closeParen]) =
      .openParen :: (cs ++ .op "?" :: (ys ++ .op ":" :: (ns ++ [.closeParen]))) := by
    rw [List.append_assoc, List.cons_append, List.append_assoc, List.cons_append]
  refine ⟨_, ?_, .choose hc hy hn⟩
  rw [htext, ← hlexemes]
  exact (spells_grouped hchoice).narrow fun _ _ => rfl

end Conditions

/-! ## Declared variables and advances -/

/-- A counter with what it starts from, and what both are read as. -/
def ReadInit (c : Name × Expr) (i : String × Tree) : Prop :=
  c.1.Plain ∧ c.1.text = i.1 ∧ Read (Derives 1) c.2.text i.2

theorem Name.Plain.readInit {name : Name} (h : name.Plain) {e : Expr} {t : Tree}
    (ht : Read (Derives 1) e.text t) : ReadInit (name, e) (name.text, t) := ⟨h, rfl, ht⟩

theorem ReadInit.read {c : Name × Expr} {i : String × Tree} (h : ReadInit c i) :
    Read ReadsInits (c.1.text ++ " = " ++ c.2.text) [i] := by
  obtain ⟨w, t⟩ := i
  obtain ⟨hplain, hname, ts, hts, ht⟩ := h
  obtain rfl : c.1.text = w := hname
  have htext : (c.1.text ++ " = " ++ c.2.text).toList =
      c.1.text.toList ++ (' ' :: ("=".toList ++ [' ']) ++ c.2.text.toList) := by simp
  refine ⟨.word c.1.text :: .op "=" :: ts, ?_, .one ht⟩
  rw [htext]
  exact spells_around (by decide) (spells_of_isWord hplain.isWord) rfl hts

theorem read_counters {c : Name × Expr} {i : String × Tree} {cs : List (Name × Expr)}
    {is : List (String × Tree)} (hc : ReadInit c i) (hcs : List.Forall₂ ReadInit cs is) :
    Read ReadsInits (counterText (c :: cs)) (i :: is) := by
  induction hcs generalizing c i with
  | nil => simpa [counterText, commas] using hc.read
  | @cons d j cs is hd _ ih =>
    obtain ⟨us, hus, his⟩ := ih hd
    obtain ⟨w, t⟩ := i
    obtain ⟨hplain, hname, ts, hts, ht⟩ := hc
    obtain rfl : c.1.text = w := hname
    have htext : (counterText (c :: d :: cs)).toList =
        c.1.text.toList ++ (' ' :: ("=".toList ++ [' ']) ++
          (c.2.text.toList ++ ([',', ' '] ++ (counterText (d :: cs)).toList))) := by
      simp [counterText, commas, String.toList_intercalate]
    refine ⟨_, ?_, .more ht his⟩
    rw [htext]
    exact spells_around (by decide) (spells_of_isWord hplain.isWord) rfl
      (hts.append (spells_comma.before hus) rfl)

theorem read_increment {name : Name} (h : name.Plain) :
    Read (ReadsAdvance · name.text) (Advance.increment name).text none := by
  refine ⟨[.word name.text, .op "++"], ?_, .increment⟩
  have hmark := (spells_of_isWord h.isWord).append spells_increment rfl
  rw [Advance.text, String.toList_append]
  exact hmark.narrow fun _ _ => rfl

theorem read_add {name : Name} {stride : Expr} {t : Tree} (h : name.Plain)
    (hstride : Read (Derives 1) stride.text t) :
    Read (ReadsAdvance · name.text) (Advance.add name stride).text (some t) := by
  obtain ⟨ts, hts, ht⟩ := hstride
  have htext : (Advance.add name stride).text.toList =
      name.text.toList ++ (' ' :: ("+=".toList ++ [' ']) ++ stride.text.toList) := by
    simp [Advance.text]
  refine ⟨.word name.text :: .op "+=" :: ts, ?_, .add ht⟩
  rw [htext]
  exact spells_around (by decide) (spells_of_isWord h.isWord) rfl hts

/-! ## The whole line -/

/-- The line that opens a counting loop, without its indentation. -/
def headText (counters : List (Name × Expr)) (cond : Expr) (advance : Advance) : String :=
  "for (" ++ Ty.int.cppName ++ " " ++ counterText counters ++ "; " ++ cond.text ++ "; " ++
    advance.text ++ ") \x7b"

theorem lines_forCount (depth : Nat) (counters : List (Name × Expr)) (cond : Expr)
    (advance : Advance) (body : List Stmt) :
    (Stmt.forCount counters cond advance body).lines depth =
      line depth (headText counters cond advance) ::
        (blockLines (depth + 1) body ++ [line depth "\x7d"]) := rfl

theorem lex_line (depth : Nat) (s : String) : lex (line depth s).toList = lex s.toList := by
  induction depth with
  | zero => simp [line, indentation]
  | succ depth ih =>
    have htext : (line (depth + 1) s).toList =
        ' ' :: ' ' :: ' ' :: ' ' :: (line depth s).toList := by
      simp [line, indentation, List.replicate_succ]
    rw [htext, lex_blank rfl, lex_blank rfl, lex_blank rfl, lex_blank rfl, ih]

theorem readsHeader_line {counters : List (Name × Expr)} {cond : Expr} {advance : Advance}
    {H : Header} (hinits : Read ReadsInits (counterText counters) H.inits)
    (htest : Read ReadsTest cond.text H.test)
    (hadvance : Read (ReadsAdvance · H.counter) advance.text H.stride)
    (depth : Nat) : ReadsHeader (lex (line depth (headText counters cond advance)).toList) H := by
  obtain ⟨is, his, hinits⟩ := hinits
  obtain ⟨cs, hcs, htest⟩ := htest
  obtain ⟨as, has, hadvance⟩ := hadvance
  have hend := has.append (spells_closeParen.before (spells_blank.before spells_openBrace)) rfl
  have hparts :=
    his.append (spells_divider.before (hcs.append (spells_divider.before hend) rfl)) rfl
  have htype := spells_longLong.append (spells_blank.before hparts) rfl
  have hfor : Spells endsWord "for".toList [.word "for"] := spells_of_isWord (by decide)
  have hhead := hfor.append (spells_blank.before (spells_openParen.before htype)) rfl
  have htext : (headText counters cond advance).toList =
      "for".toList ++ ([' '] ++ (['('] ++ ("long long".toList ++ ([' '] ++
        ((counterText counters).toList ++ ([';', ' '] ++ (cond.text.toList ++ ([';', ' '] ++
          (advance.text.toList ++ ([')'] ++ ([' '] ++ ['{']))))))))))) := by
    simp only [headText, Ty.cppName, String.toList_append, String.reduceToList, List.append_assoc,
      List.cons_append, List.nil_append]
  have hlex : lex (headText counters cond advance).toList = headLexemes is cs as := by
    rw [htext]
    exact hhead.lex_eq
  rw [lex_line, hlex]
  exact .intro hinits htest hadvance

end Braces.Cpp
