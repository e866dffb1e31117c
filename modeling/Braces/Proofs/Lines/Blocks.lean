import Braces.Proofs.Lines.Texts

/-!
# The lines of blocks

A reader of lines keeps the heads of the blocks that are open. A line that starts with a closing
brace closes one, and a line that ends with an opening brace opens one. Each line is indented by the
blocks around it, ends as a line may end, and jumps only inside a loop; an empty line stands outside
of all blocks. Printed statements are lines of this kind, and leave the blocks open that were open
before them.
-/

namespace Braces.Cpp

abbrev Line := List Char

namespace Line

/-- The number of blanks at the start of a line. -/
def indent (l : Line) : Nat := (l.takeWhile (· = ' ')).length

/-- A line without the blanks at its start. -/
def content (l : Line) : Line := l.dropWhile (· = ' ')

def closes (l : Line) : Bool := l.content.head? = some '}'

def opens (l : Line) : Bool := l.getLast? = some '{'

/-- A line ends with a semicolon or an opening brace, or is a closing brace. -/
def isWhole (l : Line) : Bool := l.getLast? = some ';' || l.opens || l.content = ['}']

def isJump (l : Line) : Bool := l.content = "break;".toList || l.content = "continue;".toList

/-- Whether a line is the head of a loop. -/
def isLoop (l : Line) : Bool := "for (".toList <+: l.content || "while (".toList <+: l.content

/-- The heads of the blocks around a line, which are those open before it without the one it
closes. -/
def around? (opened : List Line) (l : Line) : Option (List Line) :=
  if l.closes then opened.tail? else some opened

/-- Whether a line can stand within blocks with these heads. -/
def isPlaced (around : List Line) (l : Line) : Bool :=
  l.indent = 4 * around.length && l.isWhole && (!l.isJump || around.any isLoop)

/-- The heads of the blocks that are open after a line, the innermost first. -/
def advance? (opened : List Line) (l : Line) : Option (List Line) :=
  if l = [] then if opened = [] then some [] else none
  else do
    let around ← l.around? opened
    if l.isPlaced around then some (if l.opens then l :: around else around) else none

end Line

open Cpp.Line

/-! ## Single lines -/

theorem toList_indentation (d : Nat) : (indentation d).toList = List.replicate (4 * d) ' ' := by
  induction d with
  | zero => rfl
  | succ d ih =>
    rw [indentation, String.toList_join] at ih ⊢
    rw [List.replicate_succ, List.flatMap_cons, ih, Nat.mul_succ, Nat.add_comm,
      ← List.replicate_append_replicate]
    rfl

section
variable {d : Nat} {s : String} {c : Char} {r : List Char}

theorem toList_line (d : Nat) (s : String) :
    (line d s).toList = List.replicate (4 * d) ' ' ++ s.toList := by
  rw [line, String.toList_append, toList_indentation]

theorem indent_line (h : s.toList = c :: r) (hc : c ≠ ' ') : indent (line d s).toList = 4 * d := by
  rw [indent, toList_line, h, List.takeWhile_append_of_pos (by simp)]
  simp [hc]

theorem content_line (h : s.toList = c :: r) (hc : c ≠ ' ') :
    content (line d s).toList = s.toList := by
  rw [content, toList_line, h, List.dropWhile_append_of_pos (by simp)]
  simp [hc]

theorem getLast?_line (s : String) (c : Char) (e : String) (h : e.toList = [c]) :
    (line d (s ++ e)).toList.getLast? = some c := by
  simp [toList_line, h]

theorem flat_line (h : Flat s) : Flat (line d s) := by
  have hblank : '\n' ≠ ' ' := by decide
  simpa [Flat, toList_line, hblank] using h

end

section
variable {d : Nat} {s : String} {opened : List Line}

/-- A line that starts with text of its own closes no block. -/
theorem advance?_inline (hs : Inline s) (hd : opened.length = d)
    (hwhole : isWhole (line d s).toList = true)
    (hjump : isJump (line d s).toList = true → opened.any isLoop = true) :
    advance? opened (line d s).toList =
      some (if opens (line d s).toList then (line d s).toList :: opened else opened) := by
  obtain ⟨c, r, h, hblank, hbrace⟩ := hs.starts
  have hne : (line d s).toList ≠ [] := by simp [toList_line, h]
  have hcloses : closes (line d s).toList = false := by
    simp [closes, content_line h hblank, h, hbrace]
  have hplaced : isPlaced opened (line d s).toList = true := by
    rw [isPlaced, indent_line h hblank, hwhole, hd]
    cases hj : isJump (line d s).toList with
    | false => simp
    | true => simp [hjump hj]
  simp [advance?, hne, around?, hcloses, hplaced]

/-- A line that starts with a closing brace closes the innermost block. -/
theorem advance?_close {head : Line} {r : List Char} (h : s.toList = '}' :: r)
    (hd : opened.length = d) (hwhole : isWhole (line d s).toList = true) :
    advance? (head :: opened) (line d s).toList =
      some (if opens (line d s).toList then (line d s).toList :: opened else opened) := by
  have hblank : '}' ≠ ' ' := by decide
  have hne : (line d s).toList ≠ [] := by simp [toList_line, h]
  have hcloses : closes (line d s).toList = true := by simp [closes, content_line h hblank, h]
  have hjump : isJump (line d s).toList = false := by simp [isJump, content_line h hblank, h]
  have hplaced : isPlaced opened (line d s).toList = true := by
    simp [isPlaced, indent_line h hblank, hwhole, hd, hjump]
  simp [advance?, hne, around?, hcloses, hplaced]

theorem isJump_line (hs : Inline s) :
    isJump (line d (s ++ ";")).toList = true ↔ ∃ j : Jump, s = j.keyword := by
  obtain ⟨c, r, h, hblank, -⟩ := (hs.append (b := ";") (by decide)).starts
  have hkey : ∀ w : String, (s ++ ";").toList = (w ++ ";").toList ↔ s = w := by
    simp [String.toList_inj]
  have hbreak := hkey "break"
  have hcontinue := hkey "continue"
  rw [isJump, content_line h hblank, Bool.or_eq_true, decide_eq_true_iff, decide_eq_true_iff]
  refine (or_congr hbreak hcontinue).trans ⟨?_, ?_⟩
  · rintro (h | h)
    · exact ⟨.break_, h⟩
    · exact ⟨.continue_, h⟩
  · rintro ⟨j, h⟩
    cases j with
    | break_ => exact .inl h
    | continue_ => exact .inr h

theorem advance?_statement (hs : Inline s) (hd : opened.length = d)
    (hjump : ∀ j : Jump, s = j.keyword → opened.any isLoop = true) :
    advance? opened (line d (s ++ ";")).toList = some opened := by
  have hlast := getLast?_line (d := d) s ';' ";" rfl
  have hwhole : isWhole (line d (s ++ ";")).toList = true := by simp [isWhole, hlast]
  rw [advance?_inline (hs.append (by decide)) hd hwhole]
  · simp [opens, hlast]
  · rw [isJump_line hs]
    exact fun ⟨j, hj⟩ => hjump j hj

theorem isJump_of_opens {l : Line} (h : opens l = true) : isJump l = false := by
  rw [opens, decide_eq_true_iff] at h
  rw [isJump, Bool.or_eq_false_iff, decide_eq_false_iff_not, decide_eq_false_iff_not, content]
  have hsplit := List.takeWhile_append_dropWhile (p := (· = ' ')) (l := l)
  constructor <;> intro hcontent <;> rw [← hsplit, hcontent] at h <;> simp at h

theorem opens_line (s : String) : opens (line d (s ++ " \x7b")).toList = true := by
  simp [opens, toList_line]

/-- A head opens the block that follows it. -/
theorem advance?_head (hs : Inline s) (hd : opened.length = d) :
    advance? opened (line d (s ++ " \x7b")).toList =
      some ((line d (s ++ " \x7b")).toList :: opened) := by
  have hopens := opens_line (d := d) s
  rw [advance?_inline (hs.append (by decide)) hd (by simp [isWhole, hopens]), if_pos hopens]
  simp [isJump_of_opens hopens]

/-- The brace after the last line of a block closes it. -/
theorem advance?_brace {head : Line} (hd : opened.length = d) :
    advance? (head :: opened) (line d "\x7d").toList = some opened := by
  have hblank : '}' ≠ ' ' := by decide
  have hcontent := content_line (d := d) (s := "\x7d") rfl hblank
  rw [advance?_close rfl hd (by simp [isWhole, hcontent])]
  simp [opens, toList_line]

/-- A line that goes on with a conditional closes one block and opens another. -/
theorem advance?_else {head : Line} (hd : opened.length = d) :
    advance? (head :: opened) (line d ("\x7d else" ++ s ++ " \x7b")).toList =
      some ((line d ("\x7d else" ++ s ++ " \x7b")).toList :: opened) := by
  have hopens := opens_line (d := d) ("\x7d else" ++ s)
  have h : ("\x7d else" ++ s ++ " \x7b").toList = '}' :: (" else" ++ s ++ " \x7b").toList := by simp
  rw [advance?_close h hd (by simp [isWhole, hopens]), if_pos hopens]

theorem isLoop_line {w : String} (hw : w = "for (" ∨ w = "while (") (r : String) :
    isLoop (line d (w ++ r)).toList = true := by
  rcases hw with rfl | rfl
  · rw [isLoop, content_line (c := 'f') (r := "or (".toList ++ r.toList) (by simp) (by decide)]
    simp
  · rw [isLoop, content_line (c := 'w') (r := "hile (".toList ++ r.toList) (by simp) (by decide)]
    simp

end

/-- The parentheses of a head close before its brace. -/
theorem head_eq (s : String) : s ++ ") \x7b" = s ++ ")" ++ " \x7b" := by
  rw [String.append_assoc]
  rfl

theorem elseIf_eq (s : String) :
    "\x7d else if (" ++ s ++ ") \x7b" = "\x7d else" ++ (" if (" ++ s ++ ")") ++ " \x7b" := by
  rw [head_eq, show "\x7d else if (" = "\x7d else" ++ " if (" from rfl]
  simp only [String.append_assoc]

theorem forCount_eq (ty counters cond advance : String) :
    "for (" ++ ty ++ " " ++ counters ++ "; " ++ cond ++ "; " ++ advance ++ ") \x7b" =
      "for (" ++ (ty ++ " " ++ counters ++ "; " ++ cond ++ "; " ++ advance) ++ ") \x7b" := by
  simp only [String.append_assoc]

theorem forEach_eq (ty name sequence : String) :
    "for (" ++ ty ++ " " ++ name ++ " : " ++ sequence ++ ") \x7b" =
      "for (" ++ (ty ++ " " ++ name ++ " : " ++ sequence) ++ ") \x7b" := by
  simp only [String.append_assoc]

/-! ## Runs of lines -/

/-- Read one after another inside some blocks, lines end inside others. -/
structure Leads (opened : List Line) (ls : List String) (opened' : List Line) : Prop where
  flat : ∀ s ∈ ls, Flat s
  run : (ls.map String.toList).foldlM advance? opened = some opened'

namespace Leads

variable {opened opened' opened'' : List Line} {s : String} {ls ls' : List String}

theorem nil : Leads opened [] opened := ⟨List.forall_mem_nil _, rfl⟩

theorem one (hs : Flat s) (h : advance? opened s.toList = some opened') :
    Leads opened [s] opened' :=
  ⟨List.forall_mem_singleton.2 hs, by simp [h]⟩

theorem append (h : Leads opened ls opened') (h' : Leads opened' ls' opened'') :
    Leads opened (ls ++ ls') opened'' := by
  refine ⟨List.forall_mem_append.2 ⟨h.flat, h'.flat⟩, ?_⟩
  rw [List.map_append, List.foldlM_append, h.run]
  exact h'.run

theorem cons (hs : Flat s) (h : advance? opened s.toList = some opened')
    (h' : Leads opened' ls opened'') : Leads opened (s :: ls) opened'' :=
  append (one hs h) h'

theorem line {d : Nat} (hs : Inline s) (hd : opened.length = d)
    (hjump : ∀ j : Jump, s = j.keyword → opened.any isLoop = true) :
    Leads opened [Cpp.line d (s ++ ";")] opened :=
  one (flat_line (hs.append (by decide)).flat) (advance?_statement hs hd hjump)

/-- Text with a blank within it is no jump. -/
theorem statement {d : Nat} (hs : Inline s) (hblank : ' ' ∈ s.toList) (hd : opened.length = d) :
    Leads opened [Cpp.line d (s ++ ";")] opened :=
  line hs hd fun j hj => absurd hj (Expr.ne_keyword_of_mem hblank (by decide) j)

theorem brace {d : Nat} {head : Line} (hd : opened.length = d) :
    Leads (head :: opened) [Cpp.line d "\x7d"] opened :=
  one (flat_line (by decide)) (advance?_brace hd)

/-- A head, the lines of its block and what closes it. -/
theorem block {d : Nat} {body rest : List String} (hs : Inline s) (hd : opened.length = d)
    (hbody : ∀ head, Leads (head :: opened) body (head :: opened))
    (hrest : ∀ head, Leads (head :: opened) rest opened) :
    Leads opened (Cpp.line d (s ++ " \x7b") :: (body ++ rest)) opened :=
  cons (flat_line (hs.append (by decide)).flat) (advance?_head hs hd) ((hbody _).append (hrest _))

/-- The end of one block of a conditional and the next one. -/
theorem goesOn {d : Nat} {head : Line} {body rest : List String} (hs : Flat s)
    (hd : opened.length = d) (hbody : ∀ head, Leads (head :: opened) body (head :: opened))
    (hrest : ∀ head, Leads (head :: opened) rest opened) :
    Leads (head :: opened) (Cpp.line d ("\x7d else" ++ s ++ " \x7b") :: (body ++ rest)) opened := by
  have hflat : Flat ("\x7d else" ++ s ++ " \x7b") :=
    flat_append.2 ⟨flat_append.2 ⟨by decide, hs⟩, by decide⟩
  exact cons (flat_line hflat) (advance?_else hd) ((hbody _).append (hrest _))

/-- A loop: the lines of its body may jump. -/
theorem loop {d : Nat} {w : String} {body : List String} (hw : w = "for (" ∨ w = "while (")
    (hs : Flat s) (hd : opened.length = d)
    (hbody : ∀ head, isLoop head = true → Leads (head :: opened) body (head :: opened)) :
    Leads opened (Cpp.line d (w ++ s ++ ") \x7b") :: (body ++ [Cpp.line d "\x7d"])) opened := by
  have hopen : Inline w := by
    rcases hw with rfl | rfl <;> exact inline_of_isInline (by decide)
  have hhead : Inline (w ++ s ++ ")") := (hopen.append hs).append (by decide)
  have hloop : isLoop (Cpp.line d (w ++ s ++ ") \x7b")).toList = true := by
    rw [String.append_assoc]
    exact isLoop_line hw _
  have hadvance := advance?_head hhead hd
  rw [← head_eq] at hadvance
  have hflat : Flat (w ++ s ++ ") \x7b") := ((hopen.append hs).append (by decide)).flat
  exact cons (flat_line hflat) hadvance ((hbody _ hloop).append (brace hd))

end Leads

/-! ## Statements -/

theorem inline_declaredName (ty : Ty) : Inline ty.declaredName := by
  cases ty <;> exact inline_of_isInline (by decide)

theorem inline_declType : ∀ ty : DeclType, Inline ty.text
  | .auto => inline_of_isInline (by decide)
  | .ty t => inline_declaredName t

def Advance.Plain : Advance → Prop
  | .increment name => name.Plain
  | .add name stride => name.Plain ∧ stride.Plain

theorem Advance.Plain.flat : ∀ {a : Advance}, a.Plain → Flat a.text
  | .increment _, h => (h.inline.append (by decide)).flat
  | .add _ _, h => ((h.1.inline.append (by decide)).append (Expr.inline_text h.2).flat).flat

mutual

/-- The expressions of a statement are plain, and it jumps only inside a loop. -/
def Stmt.Orderly (inLoop : Bool) : Stmt → Prop
  | .declare _ name value => name.Plain ∧ value.Plain
  | .reserve _ name => name.Plain
  | .store target value => target.Plain ∧ value.Plain
  | .output items => Expr.PlainAll items
  | .eval e => e.Plain
  | .ifElse cond body orelse => cond.Plain ∧ OrderlyBlock inLoop body ∧ orelse.Orderly inLoop
  | .whileLoop cond body => cond.Plain ∧ OrderlyBlock true body
  | .forCount counters cond advance body =>
    (∀ c ∈ counters, c.1.Plain ∧ c.2.Plain) ∧ cond.Plain ∧ advance.Plain ∧ OrderlyBlock true body
  | .forEach _ name sequence body => name.Plain ∧ sequence.Plain ∧ OrderlyBlock true body
  | .ret value => ∀ e ∈ value, e.Plain
  | .retDefault => True
  | .jump _ => inLoop = true

def OrderlyBlock (inLoop : Bool) : List Stmt → Prop
  | [] => True
  | s :: rest => s.Orderly inLoop ∧ OrderlyBlock inLoop rest

def Else.Orderly (inLoop : Bool) : Else → Prop
  | .nothing => True
  | .elseIf cond body orelse => cond.Plain ∧ OrderlyBlock inLoop body ∧ orelse.Orderly inLoop
  | .block body => OrderlyBlock inLoop body

end

theorem orderlyBlock_append {inLoop : Bool} {ss ss' : List Stmt} :
    OrderlyBlock inLoop (ss ++ ss') ↔ OrderlyBlock inLoop ss ∧ OrderlyBlock inLoop ss' := by
  induction ss with
  | nil => simp [OrderlyBlock]
  | cons s rest ih => simp [OrderlyBlock, ih, and_assoc]

theorem flat_counterText {counters : List (Name × Expr)}
    (h : ∀ c ∈ counters, c.1.Plain ∧ c.2.Plain) : Flat (counterText counters) := by
  refine flat_intercalate (by decide) ?_
  rw [List.forall_mem_map]
  intro c hc
  exact ((h c hc).1.inline.append (by decide)).append (Expr.inline_text (h c hc).2).flat |>.flat

theorem leads_output {opened : List Line} {items : List Expr} {d : Nat} (h : Expr.PlainAll items)
    (hd : opened.length = d) : Leads opened [line d (outputText items)] opened := by
  have hopen : Inline "cout << " := inline_of_isInline (by decide)
  unfold outputText
  split
  · exact Leads.statement (s := "cout << endl") (inline_of_isInline (by decide)) (by decide) hd
  · have hitems := @flat_intercalate " << \" \" << " _ (by decide) (Expr.flat_texts h)
    have hinline := (hopen.append hitems).append (b := " << endl") (by decide)
    rw [show " << endl;" = " << endl" ++ ";" from rfl, ← String.append_assoc]
    exact .statement hinline (by simp) hd

theorem leads_ret {opened : List Line} {value : Option Expr} {d : Nat} (h : ∀ e ∈ value, e.Plain)
    (hd : opened.length = d) : Leads opened (Stmt.lines d (.ret value)) opened := by
  cases value with
  | none =>
    have hinline : Inline "return" := inline_of_isInline (by decide)
    have hkey : ∀ j : Jump, "return" ≠ j.keyword := by
      rintro (_ | _) <;> decide
    rw [Stmt.lines, show "return;" = "return" ++ ";" from rfl]
    refine .one (flat_line (by decide)) (advance?_statement hinline hd ?_)
    exact fun j hj => absurd hj (hkey j)
  | some e =>
    have hopen : Inline "return " := inline_of_isInline (by decide)
    have hvalue := hopen.append (Expr.inline_text (h e rfl)).flat
    rw [Stmt.lines]
    exact .statement hvalue (by simp) hd

mutual

/-- The lines of a statement leave the blocks open that were open before it. -/
theorem Stmt.leads : ∀ {s : Stmt} {inLoop : Bool} {d : Nat} {opened : List Line},
    s.Orderly inLoop → opened.length = d → (inLoop = true → opened.any isLoop = true) →
    Leads opened (s.lines d) opened
  | .declare ty name value, _, _, _, h, hd, _ => by
    have hname := ((inline_declType ty).append (b := " ") (by decide)).append h.1.inline.flat
    have hvalue := (hname.append (b := " = ") (by decide)).append (Expr.inline_text h.2).flat
    rw [Stmt.lines]
    exact .statement hvalue (by simp) hd
  | .reserve ty name, _, _, _, h, hd, _ => by
    have hopen := (inline_declaredName ty).append (b := " ") (by decide)
    have hname := hopen.append (@Name.Plain.inline name h).flat
    rw [Stmt.lines, show "\x7b\x7d;" = "\x7b\x7d" ++ ";" from rfl, ← String.append_assoc]
    exact .statement (hname.append (by decide)) (by simp) hd
  | .store target value, _, _, _, h, hd, _ => by
    have htarget := (Expr.inline_text h.1).append (b := " = ") (by decide)
    rw [Stmt.lines]
    exact .statement (htarget.append (Expr.inline_text h.2).flat) (by simp) hd
  | .output items, _, _, _, h, hd, _ => leads_output h hd
  | .eval e, _, _, _, h, hd, _ =>
    .line (Expr.inline_text h) hd fun j hj => absurd hj (Expr.text_ne_keyword h j)
  | .ifElse cond body orelse, _, _, _, h, hd, hloop => by
    have hopen : Inline "if (" := inline_of_isInline (by decide)
    have hhead := (hopen.append (Expr.inline_text h.1).flat).append (b := ")") (by decide)
    rw [Stmt.lines, head_eq]
    refine .block hhead hd (fun _ => leads_blockLines h.2.1 (by simp [hd]) ?_) fun _ =>
      orelse.leads h.2.2 hd hloop
    intro hl
    simp [hloop hl]
  | .whileLoop cond body, _, _, _, h, hd, hloop => by
    rw [Stmt.lines]
    refine .loop (.inr rfl) (Expr.inline_text h.1).flat hd fun head hhead => ?_
    exact leads_blockLines h.2 (by simp [hd]) (by simp [hhead])
  | .forCount counters cond advance body, _, _, _, h, hd, hloop => by
    have hopen := (inline_cppName .int).append (b := " ") (by decide)
    have hcounters := (hopen.append (flat_counterText h.1)).append (b := "; ") (by decide)
    have hcond := (hcounters.append (Expr.inline_text h.2.1).flat).append (b := "; ") (by decide)
    rw [Stmt.lines, forCount_eq]
    refine .loop (.inl rfl) (hcond.append h.2.2.1.flat).flat hd fun head hhead => ?_
    exact leads_blockLines h.2.2.2 (by simp [hd]) (by simp [hhead])
  | .forEach ty name sequence body, _, _, _, h, hd, hloop => by
    have hname := ((inline_declType ty).append (b := " ") (by decide)).append h.1.inline.flat
    have hhead := (hname.append (b := " : ") (by decide)).append (Expr.inline_text h.2.1).flat
    rw [Stmt.lines, forEach_eq]
    refine .loop (.inl rfl) hhead.flat hd fun head hhead => ?_
    exact leads_blockLines h.2.2 (by simp [hd]) (by simp [hhead])
  | .ret value, _, _, _, h, hd, _ => leads_ret h hd
  | .retDefault, _, _, _, _, hd, _ => by
    rw [Stmt.lines, show "return \x7b\x7d;" = "return \x7b\x7d" ++ ";" from rfl]
    exact .statement (inline_of_isInline (by decide)) (by decide) hd
  | .jump j, _, _, _, h, hd, hloop => by
    have hj : Inline j.keyword := by cases j <;> exact inline_of_isInline (by decide)
    exact .line hj hd fun _ _ => hloop h

theorem leads_blockLines : ∀ {ss : List Stmt} {inLoop : Bool} {d : Nat} {opened : List Line},
    OrderlyBlock inLoop ss → opened.length = d → (inLoop = true → opened.any isLoop = true) →
    Leads opened (blockLines d ss) opened
  | [], _, _, _, _, _, _ => .nil
  | s :: _, _, _, _, h, hd, hloop => (s.leads h.1 hd hloop).append (leads_blockLines h.2 hd hloop)

/-- What ends a conditional closes the block before it. -/
theorem Else.leads : ∀ {s : Else} {inLoop : Bool} {d : Nat} {opened : List Line} {head : Line},
    s.Orderly inLoop → opened.length = d → (inLoop = true → opened.any isLoop = true) →
    Leads (head :: opened) (s.lines d) opened
  | .nothing, _, _, _, _, _, hd, _ => .brace hd
  | .elseIf cond body orelse, _, _, _, _, h, hd, hloop => by
    have hcond := (Expr.inline_text h.1).flat
    have hhead : Flat (" if (" ++ cond.text ++ ")") :=
      flat_append.2 ⟨flat_append.2 ⟨by decide, hcond⟩, by decide⟩
    rw [Else.lines, elseIf_eq]
    refine .goesOn hhead hd (fun _ => leads_blockLines h.2.1 (by simp [hd]) ?_) fun _ =>
      orelse.leads h.2.2 hd hloop
    intro hl
    simp [hloop hl]
  | .block body, _, _, _, _, h, hd, hloop => by
    rw [Else.lines, show "\x7d else \x7b" = "\x7d else" ++ "" ++ " \x7b" from rfl]
    refine .goesOn (by decide) hd (fun _ => leads_blockLines h (by simp [hd]) ?_) fun _ => .brace hd
    intro hl
    simp [hloop hl]

end

end Braces.Cpp
