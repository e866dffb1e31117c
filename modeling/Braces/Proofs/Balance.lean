import Braces.Proofs.Lines.Emission
import Braces.Proofs.Resolution
import Mathlib.Data.List.DropRight

/-!
# The balance of emitted text

The lines of an accepted program, after the prelude, stand in blocks that are all closed at the end,
with the indentation of the blocks around them, and every function is declared by two of them: its
prototype and the head of its definition.
-/

namespace Braces

open Cpp

/-! ## Declarations -/

/-- The names of a signature have the form of names. -/
structure Signature.Plain (s : Signature) : Prop where
  name : isName s.name = true
  params : ∀ p ∈ s.params, isName p.name = true

namespace Cpp

/-- The word before the first parenthesis of a line that is not indented. -/
def Line.declared? (l : Line) : Option (List Char) :=
  if l.indent = 0 && '(' ∈ l then some ((l.takeWhile (· ≠ '(')).rtakeWhile (· ≠ ' ')) else none

theorem Line.declared?_word {l w r : Line} (hindent : Line.indent (l ++ ' ' :: w ++ '(' :: r) = 0)
    (hl : '(' ∉ l) (hw : '(' ∉ w) (hblank : ' ' ∉ w) :
    Line.declared? (l ++ ' ' :: w ++ '(' :: r) = some w := by
  have hbefore : (l ++ ' ' :: w ++ '(' :: r).takeWhile (· ≠ '(') = l ++ ' ' :: w := by
    have hall : '(' ∉ l ++ ' ' :: w := by simp [hl, hw]
    rw [List.takeWhile_append_of_pos fun c hc => by simpa using ne_of_mem_of_not_mem hc hall]
    simp
  have hword : (l ++ ' ' :: w).rtakeWhile (· ≠ ' ') = w := by
    have hall : ' ' ∉ w.reverse := by simpa using hblank
    rw [List.rtakeWhile, List.reverse_append, List.reverse_cons, List.append_assoc,
      List.takeWhile_append_of_pos fun c hc => by simpa using ne_of_mem_of_not_mem hc hall]
    simp
  rw [Line.declared?, hindent, hbefore, hword]
  simp

end Cpp

/-- The type that a declaration gives a function. -/
def Signature.resultName (s : Signature) : String :=
  if s.result = .void then Ty.void.cppName else s.result.declaredName

section
variable {s : Signature}

theorem Signature.declaration_eq (s : Signature) :
    s.declaration =
      s.resultName ++ " " ++ spell s.name ++ "(" ++
        commas (s.params.map Param.declaration) ++ ")" :=
  rfl

theorem flat_paramDeclaration {p : Param} (h : isName p.name = true) : Flat p.declaration := by
  have hty := inline_declaredName p.ty
  have hname := (inline_of_isWord (isWord_spell h)).flat
  have hopen : Inline "const " := inline_of_isInline (by decide)
  unfold Param.declaration
  split
  · exact ((hty.append (b := " ") (by decide)).append hname).flat
  · exact (((hopen.append hty.flat).append (b := "& ") (by decide)).append hname).flat
  · exact ((hty.append (b := "& ") (by decide)).append hname).flat

theorem inline_resultName (s : Signature) : Inline s.resultName := by
  unfold Signature.resultName
  split
  · exact inline_cppName .void
  · exact inline_declaredName s.result

theorem Signature.Plain.inline (h : s.Plain) : Inline s.declaration := by
  have hname := (inline_of_isWord (isWord_spell h.name)).flat
  have hhead := ((inline_resultName s).append (b := " ") (by decide)).append hname
  refine (hhead.append (b := "(") (by decide)).bracketed ?_ (by decide)
  rw [List.forall_mem_map]
  exact fun p hp => flat_paramDeclaration (h.params p hp)

theorem not_mem_resultName (s : Signature) : '(' ∉ s.resultName.toList := by
  have hdeclared : ∀ ty : Ty, '(' ∉ ty.declaredName.toList := by
    intro ty
    cases ty <;> decide
  unfold Signature.resultName
  split
  · decide
  · exact hdeclared s.result

theorem not_mem_of_isWord {w : String} {c : Char} (h : isWord w.toList = true)
    (hc : isWordChar c = false) : c ∉ w.toList := by
  intro hmem
  have hall : w.toList.all isWordChar = true := by
    cases hw : w.toList with
    | nil => rfl
    | cons d r =>
      rw [hw, isWord, Bool.and_eq_true] at h
      exact h.2
  exact isWordChar_ne (List.all_eq_true.1 hall c hmem) hc rfl

theorem Signature.Plain.declared? (h : s.Plain) (e : String) :
    Line.declared? (s.declaration ++ e).toList = some (spell s.name).toList := by
  obtain ⟨c, r, hstart, hblank, -⟩ := (inline_resultName s).starts
  have hword := isWord_spell h.name
  have hlist : ∃ rest, (s.declaration ++ e).toList =
      (s.resultName.toList ++ ' ' :: (spell s.name).toList) ++ '(' :: rest := by
    simp [Signature.declaration_eq]
  obtain ⟨rest, hlist⟩ := hlist
  rw [hlist]
  refine Line.declared?_word ?_ (not_mem_resultName s) (not_mem_of_isWord hword (by decide))
    (not_mem_of_isWord hword (by decide))
  simp [Line.indent, hstart, hblank]

end

/-! ## Units -/

namespace Cpp

/-- The names of a unit have the form of names, and its statements are orderly. -/
structure Unit.Orderly (u : Unit) : Prop where
  prototypes : ∀ s ∈ u.prototypes, s.Plain
  routines : ∀ r ∈ u.routines, r.signature.Plain ∧ OrderlyBlock false r.body
  entry : OrderlyBlock false u.entry

theorem line_zero (s : String) : line 0 s = s := by
  rw [← String.toList_inj, toList_line]
  simp

theorem leads_blank : Leads [] [""] [] := .one (by decide) rfl

/-- A function outside of all blocks. -/
theorem leads_definition {head : String} {body : List Stmt} (hhead : Inline head)
    (hbody : OrderlyBlock false body) :
    Leads [] ((head ++ " \x7b") :: (blockLines 1 body ++ ["\x7d"])) [] := by
  have hlines : ∀ l : Line, Leads [l] (blockLines 1 body) [l] := fun _ =>
    leads_blockLines hbody rfl nofun
  have h : Leads [] (line 0 (head ++ " \x7b") :: (blockLines 1 body ++ [line 0 "\x7d"])) [] :=
    .block hhead rfl hlines fun _ => .brace rfl
  rwa [line_zero, line_zero] at h

theorem leads_prototypes {sigs : List Signature} (h : ∀ s ∈ sigs, s.Plain) :
    Leads [] (sigs.map (·.declaration ++ ";")) [] := by
  induction sigs with
  | nil => exact .nil
  | cons s sigs ih =>
    have hs := h s List.mem_cons_self
    have hline : Leads [] [line 0 (s.declaration ++ ";")] [] :=
      .statement hs.inline (by simp [Signature.declaration_eq]) rfl
    rw [line_zero] at hline
    exact hline.append (ih fun s' hs' => h s' (List.mem_cons_of_mem _ hs'))

theorem leads_routines {rs : List Routine}
    (h : ∀ r ∈ rs, r.signature.Plain ∧ OrderlyBlock false r.body) :
    Leads [] (rs.flatMap (·.lines ++ [""])) [] := by
  induction rs with
  | nil => exact .nil
  | cons r rs ih =>
    obtain ⟨hsig, hbody⟩ := h r List.mem_cons_self
    have hrest := ih fun r' hr' => h r' (List.mem_cons_of_mem _ hr')
    exact ((leads_definition hsig.inline hbody).append leads_blank).append hrest

theorem Unit.Orderly.leads {u : Unit} (h : u.Orderly) : Leads [] u.lines [] := by
  have hprototypes : Leads [] (prototypeLines u.prototypes) [] := by
    unfold prototypeLines
    split
    · exact .nil
    · exact (leads_prototypes h.prototypes).append leads_blank
  have hmain : Inline "int main()" := inline_of_isInline (by decide)
  have hentry := leads_definition hmain h.entry
  rw [Unit.lines, show "int main() \x7b" = "int main()" ++ " \x7b" from rfl]
  exact leads_blank.append ((hprototypes.append (leads_routines h.routines)).append hentry)

/-- The text of lines that end one another is cut back into them. -/
theorem splitOn_join {ls : List String} (h : ∀ s ∈ ls, Flat s) :
    (String.join (ls.map (· ++ "\n"))).toList.splitOn '\n' = ls.map String.toList ++ [[]] := by
  have hjoin : (String.join (ls.map (· ++ "\n"))).toList =
      ['\n'].intercalate (ls.map String.toList ++ [[]]) := by
    clear h
    rw [String.toList_join]
    induction ls with
    | nil => rfl
    | cons s ls ih =>
      rw [List.map_cons, List.flatMap_cons, ih, List.map_cons, List.cons_append,
        List.intercalate_cons_of_ne_nil (by simp)]
      simp
  rw [hjoin]
  refine List.splitOn_intercalate _ ?_ (by simp)
  rw [List.forall_mem_append, List.forall_mem_map]
  exact ⟨h, by simp⟩

/-! ## Lines that declare -/

/-- Whether a line declares a name. -/
def declares (name : String) (l : String) : Bool := Line.declared? l.toList = some name.toList

theorem declares_line {name s : String} {d : Nat} : declares name (line (d + 1) s) = false := by
  have hindent : Line.indent (line (d + 1) s).toList ≠ 0 := by
    rw [Line.indent, toList_line, Nat.mul_succ, List.replicate_succ, List.cons_append,
      List.takeWhile_cons_of_pos (by decide)]
    simp
  simp [declares, Line.declared?, hindent]

mutual

/-- A line within a block declares nothing that is called. -/
theorem Stmt.declares_lines {name : String} :
    ∀ {s : Stmt} {d : Nat}, ∀ l ∈ s.lines (d + 1), declares name l = false
  | .declare _ _ _, _ | .reserve _ _, _ | .store _ _, _ | .output _, _ | .eval _, _
  | .ret (some _), _ | .ret none, _ | .retDefault, _ | .jump _, _ => by
    rw [Stmt.lines, List.forall_mem_singleton]
    exact declares_line
  | .ifElse _ body orelse, d => by
    rw [Stmt.lines, List.forall_mem_cons, List.forall_mem_append]
    exact ⟨declares_line, declares_blockLines, orelse.declares_lines⟩
  | .whileLoop _ body, d | .forCount _ _ _ body, d | .forEach _ _ _ body, d => by
    rw [Stmt.lines, List.forall_mem_cons, List.forall_mem_append, List.forall_mem_singleton]
    exact ⟨declares_line, declares_blockLines, declares_line⟩

theorem declares_blockLines {name : String} :
    ∀ {ss : List Stmt} {d : Nat}, ∀ l ∈ blockLines (d + 1) ss, declares name l = false
  | [], _ => List.forall_mem_nil _
  | s :: _, _ => List.forall_mem_append.2 ⟨s.declares_lines, declares_blockLines⟩

theorem Else.declares_lines {name : String} :
    ∀ {s : Else} {d : Nat}, ∀ l ∈ s.lines (d + 1), declares name l = false
  | .nothing, _ => List.forall_mem_singleton.2 declares_line
  | .elseIf _ body orelse, _ => by
    rw [Else.lines, List.forall_mem_cons, List.forall_mem_append]
    exact ⟨declares_line, declares_blockLines, orelse.declares_lines⟩
  | .block body, _ => by
    rw [Else.lines, List.forall_mem_cons, List.forall_mem_append, List.forall_mem_singleton]
    exact ⟨declares_line, declares_blockLines, declares_line⟩

end

section
variable {name : String}

theorem declares_declaration (name : String) {s : Signature} (h : s.Plain) (e : String) :
    declares (spell name) (s.declaration ++ e) = decide (s.name = name) := by
  rw [declares, h.declared? e, decide_eq_decide, Option.some.injEq, String.toList_inj]
  exact ⟨fun heq => spell_inj heq, fun heq => by rw [heq]⟩

/-- Only the first line of a definition declares a name. -/
theorem filter_definition {head : String} {body : List Stmt} :
    (head :: (blockLines 1 body ++ ["\x7d"])).filter (declares name) =
      [head].filter (declares name) := by
  have hbody : (blockLines 1 body).filter (declares name) = [] :=
    List.filter_eq_nil_iff.2 fun l hl => by simp [declares_blockLines (d := 0) l hl]
  have hbrace : ["\x7d"].filter (declares name) = [] := rfl
  rw [← List.singleton_append, List.filter_append, List.filter_append, hbody, hbrace,
    List.append_nil, List.append_nil]

theorem filter_prototypes (name : String) {sigs : List Signature} (h : ∀ s ∈ sigs, s.Plain)
    (e : String) : (sigs.map (·.declaration ++ e)).filter (declares (spell name)) =
      (sigs.filter (·.name = name)).map (·.declaration ++ e) := by
  rw [List.filter_map]
  refine congrArg (List.map _) (List.filter_congr fun s hs => ?_)
  rw [Function.comp_apply, declares_declaration name (h s hs)]

theorem filter_blank (name : String) : [""].filter (declares name) = [] := rfl

theorem filter_routines (name : String) {rs : List Routine} (h : ∀ r ∈ rs, r.signature.Plain) :
    (rs.flatMap (·.lines ++ [""])).filter (declares (spell name)) =
      ((rs.map (·.signature)).filter (·.name = name)).map (·.declaration ++ " \x7b") := by
  induction rs with
  | nil => rfl
  | cons r rs ih =>
    have hr := declares_declaration name (h r List.mem_cons_self) " \x7b"
    have hrest := ih fun r' hr' => h r' (List.mem_cons_of_mem _ hr')
    rw [List.flatMap_cons, List.filter_append, List.filter_append, filter_blank, List.append_nil,
      Routine.lines, filter_definition, hrest, List.map_cons, List.filter_cons, hr,
      List.filter_cons]
    split <;> rfl

theorem declares_main (hname : name ≠ entryName) :
    declares (spell name) "int main() \x7b" = false := by
  have hmain : Line.declared? "int main() \x7b".toList = some (spell entryName).toList := by decide
  have hne : spell entryName ≠ spell name := fun heq => hname (spell_inj heq).symm
  rw [declares, hmain, decide_eq_false_iff_not, Option.some.injEq, String.toList_inj]
  exact hne

/-- The lines of a unit that declare a function are its prototypes and the heads of its
definitions. -/
theorem Unit.Orderly.filter_lines {u : Unit} (h : u.Orderly) (hname : name ≠ entryName)
    (hsigs : u.routines.map (·.signature) = u.prototypes) :
    u.lines.filter (declares (spell name)) =
      (u.prototypes.filter (·.name = name)).map (·.declaration ++ ";") ++
        (u.prototypes.filter (·.name = name)).map (·.declaration ++ " \x7b") := by
  have hprototypes : (prototypeLines u.prototypes).filter (declares (spell name)) =
      (u.prototypes.filter (·.name = name)).map (·.declaration ++ ";") := by
    rw [← filter_prototypes name h.prototypes]
    unfold prototypeLines
    split
    · next hempty =>
      rw [List.isEmpty_iff.1 hempty]
      rfl
    · rw [List.filter_append, filter_blank, List.append_nil]
  have hroutines := filter_routines name fun r hr => (h.routines r hr).1
  rw [Unit.lines, ← List.singleton_append, List.filter_append, filter_blank, List.nil_append,
    List.filter_append, List.filter_append, hprototypes, hroutines, hsigs, filter_definition,
    List.filter_singleton, declares_main hname, cond_false, List.append_nil]

end

end Cpp

/-! ## Emitted programs -/

theorem filter_eq_singleton_of_nodup {α β : Type} [DecidableEq β] {key : α → β} {l : List α}
    (h : (l.map key).Nodup) {a : α} (ha : a ∈ l) : l.filter (key · = key a) = [a] := by
  induction l with
  | nil => cases ha
  | cons b l ih =>
    rw [List.map_cons, List.nodup_cons] at h
    rcases List.mem_cons.1 ha with rfl | ha
    · have hrest : l.filter (key · = key a) = [] := by
        rw [List.filter_eq_nil_iff]
        intro c hc heq
        exact h.1 (List.mem_map.2 ⟨c, hc, of_decide_eq_true heq⟩)
      rw [List.filter_cons_of_pos (by simp), hrest]
    · have hne : key b ≠ key a := fun heq => h.1 (List.mem_map.2 ⟨a, ha, heq.symm⟩)
      rw [List.filter_cons_of_neg (by simpa using hne), ih h.2 ha]

theorem exists_of_mapM_mem {ε α β : Type} {g : α → Except ε β} {l : List α} {l' : List β}
    (h : l.mapM g = .ok l') {b : β} (hb : b ∈ l') : ∃ a ∈ l, g a = .ok b := by
  induction l generalizing l' with
  | nil =>
    cases h
    cases hb
  | cons a l ih =>
    obtain ⟨b', bs, rfl, ha, hbs⟩ := exists_of_mapM_cons h
    rcases List.mem_cons.1 hb with rfl | hb
    · exact ⟨a, List.mem_cons_self, ha⟩
    · obtain ⟨a', ha', hg⟩ := ih hbs hb
      exact ⟨a', List.mem_cons_of_mem _ ha', hg⟩

namespace Program

variable {p : Program} {t : Table} {u : Cpp.Unit}

theorem plain_functions (hworded : ∀ fn ∈ p.functions, ∀ x ∈ fn.name :: fn.params, isName x = true)
    (h : p.infer = .ok t) : ∀ s ∈ t.functions, s.Plain := by
  intro s hs
  have hnames : (s.name, s.params.map (·.name)) ∈ t.names := List.mem_map_of_mem hs
  rw [names_of_infer h, List.mem_map] at hnames
  obtain ⟨fn, hfn, heq⟩ := hnames
  obtain ⟨hname, hparams⟩ := Prod.mk.inj heq
  have hfn := hworded fn (List.mem_filter.1 hfn).1
  rw [hname, hparams, List.forall_mem_cons, List.forall_mem_map] at hfn
  exact ⟨hfn.1, hfn.2⟩

theorem isName_of_mem_hoisted (h : p.infer = .ok t) {w : String × List Stmt} (hw : w ∈ p.walks)
    (hworded : ∀ s ∈ Stmt.withinBlock w.2, s.Worded) {x : String} {v : Local}
    (hv : (x, v) ∈ t.hoisted w.1) : isName x = true := by
  have hlocal : (t.local? w.1 x).isSome := by rw [local?_of_mem_hoisted h hw hv]; rfl
  obtain ⟨s, hs, htarget⟩ := List.mem_filterMap.1 ((isSome_local?_iff h hw).1 hlocal).2
  refine (hworded s hs).names x ?_
  cases s with
  | assign name value | forLoop name iterable body =>
    cases htarget
    exact List.mem_cons_self
  | _ => cases htarget

theorem orderly_reserved (h : p.infer = .ok t) {w : String × List Stmt} (hw : w ∈ p.walks)
    (hworded : ∀ s ∈ Stmt.withinBlock w.2, s.Worded) :
    OrderlyBlock false (Frame.reserved ⟨t, w.1⟩) := by
  have hnames : ∀ entry ∈ t.hoisted w.1, isName entry.1 = true := fun _ hv =>
    isName_of_mem_hoisted h hw hworded hv
  unfold Frame.reserved
  generalize t.hoisted w.1 = entries at hnames ⊢
  induction entries with
  | nil => trivial
  | cons entry rest ih =>
    rw [List.forall_mem_cons] at hnames
    exact ⟨hnames.1, ih hnames.2⟩

theorem orderly_body (h : p.infer = .ok t) {w : String × List Stmt} (hw : w ∈ p.walks)
    (hworded : ∀ s ∈ Stmt.withinBlock w.2, s.Worded) {params : List Param} {cs : List Cpp.Stmt}
    (hcs : Frame.body ⟨t, w.1⟩ params w.2 = .ok cs) : OrderlyBlock false cs := by
  obtain ⟨cs, st', hblock, rfl⟩ := Frame.exists_block_of_body hcs
  exact orderlyBlock_append.2
    ⟨orderly_reserved h hw hworded, (Frame.emits_of_block hblock).orderly hworded⟩

theorem map_name_functions (h : p.infer = .ok t) :
    t.functions.map (·.name) = p.routines.map (·.name) := by
  simpa [Table.names, Function.comp_def] using congrArg (List.map Prod.fst) (names_of_infer h)

theorem nodup_functions (h : p.infer = .ok t) : (t.functions.map (·.name)).Nodup := by
  rw [map_name_functions h]
  exact (infer_eq_ok_iff.1 h).2.1

theorem signature?_of_mem (h : p.infer = .ok t) {s : Signature} (hs : s ∈ t.functions) :
    t.signature? s.name = some s :=
  (find?_eq_some_iff_of_nodup (nodup_functions h)).2 ⟨hs, rfl⟩

theorem signatures_of_mapM {fns : List Function} {rs : List Routine}
    (h : fns.mapM (emitFunction t) = .ok rs) :
    rs.map (some ·.signature) = fns.map (t.signature? ·.name) := by
  induction fns generalizing rs with
  | nil =>
    cases h
    rfl
  | cons fn fns ih =>
    obtain ⟨r, rs, rfl, hr, hrs⟩ := exists_of_mapM_cons h
    rw [List.map_cons, List.map_cons, ih hrs, (emitFunction_ok hr).1]

/-- Functions are emitted in the order of their prototypes. -/
theorem signatures_of_emit (h : p.infer = .ok t) {rs : List Routine}
    (hrs : p.routines.mapM (emitFunction t) = .ok rs) : rs.map (·.signature) = t.functions := by
  have hsome : (rs.map (·.signature)).map some = t.functions.map some :=
    calc (rs.map (·.signature)).map some = p.routines.map (t.signature? ·.name) := by
          rw [← signatures_of_mapM hrs, List.map_map]
          rfl
      _ = (t.functions.map (·.name)).map t.signature? := by
          rw [map_name_functions h, List.map_map]
          rfl
      _ = t.functions.map some := by
          rw [List.map_map]
          exact List.map_congr_left fun s hs => signature?_of_mem h hs
  exact List.map_injective_iff.2 (Option.some_injective _) hsome

theorem signatures_of_unit (h : p.infer = .ok t) (hemit : p.emit t = .ok u) :
    u.routines.map (·.signature) = u.prototypes ∧ u.prototypes = t.functions := by
  obtain ⟨rs, hrs, hemit⟩ := exists_of_bind_eq_ok hemit
  obtain ⟨entry, hentry, hemit⟩ := exists_of_bind_eq_ok hemit
  cases hemit
  exact ⟨signatures_of_emit h hrs, rfl⟩

theorem orderly_of_emit {source : String} (hp : readSource source = .ok p) (h : p.infer = .ok t)
    (hemit : p.emit t = .ok u) : u.Orderly := by
  obtain ⟨hnames, hworded⟩ := worded_of_readSource hp
  have hplain := plain_functions hnames h
  obtain ⟨rs, hrs, hemit⟩ := exists_of_bind_eq_ok hemit
  obtain ⟨entry, hentry, hemit⟩ := exists_of_bind_eq_ok hemit
  cases hemit
  refine ⟨hplain, fun r hr => ?_, ?_⟩
  · obtain ⟨fn, hfn, hr⟩ := exists_of_mapM_mem hrs hr
    obtain ⟨hsig, hbody⟩ := emitFunction_ok hr
    have hw : (fn.name, fn.body) ∈ p.walks :=
      List.mem_append_left _ (List.mem_map.2 ⟨fn, hfn, rfl⟩)
    exact ⟨hplain _ (List.mem_of_find?_eq_some hsig), orderly_body h hw (hworded _ hw) hbody⟩
  · obtain ⟨body, hbody, hentry⟩ := exists_of_bind_eq_ok hentry
    cases hentry
    have hw : (entryName, p.entryStatements) ∈ p.walks := List.mem_append_right _ List.mem_cons_self
    refine orderlyBlock_append.2 ⟨orderly_body h hw (hworded _ hw) hbody, ?_, trivial⟩
    exact fun e he => Option.some.inj he ▸ Int.le_refl 0

end Program

/-- The lines of an accepted program after the prelude are balanced, and each of its functions has
one prototype and one definition, with the same declaration. -/
theorem compile_balanced {source text : String} (h : compile source = .ok text) :
    ∃ p t body, readSource source = .ok p ∧ p.infer = .ok t ∧ text = preludeText ++ body ∧
      (body.toList.splitOn '\n').foldlM Line.advance? [] = some [] ∧
      ∀ fn ∈ p.routines, ∃ s, t.signature? fn.name = some s ∧
        (body.toList.splitOn '\n').filter
          (fun l => Line.declared? l = some (spell fn.name).toList) =
          [(s.declaration ++ ";").toList, (s.declaration ++ " \x7b").toList] := by
  obtain ⟨p, t, u, hp, ht, hemit, -, htext⟩ := exists_of_compile h
  have horderly := Program.orderly_of_emit hp ht hemit
  obtain ⟨hflat, hrun⟩ := horderly.leads
  have hlines : u.body.toList.splitOn '\n' = u.lines.map String.toList ++ [[]] := splitOn_join hflat
  refine ⟨p, t, u.body, hp, ht, htext, ?_, fun fn hfn => ?_⟩
  · rw [hlines, List.foldlM_append, hrun]
    rfl
  · obtain ⟨hsigs, hprototypes⟩ := Program.signatures_of_unit ht hemit
    have hname : fn.name ≠ entryName := by simpa using (List.mem_filter.1 hfn).2
    obtain ⟨s, hs, hsname⟩ : ∃ s ∈ t.functions, s.name = fn.name := by
      rw [← List.mem_map, Program.map_name_functions ht]
      exact List.mem_map_of_mem hfn
    have hfilter := filter_eq_singleton_of_nodup (Program.nodup_functions ht) hs
    rw [hsname] at hfilter
    refine ⟨s, hsname ▸ Program.signature?_of_mem ht hs, ?_⟩
    have hdeclared := horderly.filter_lines hname hsigs
    rw [hprototypes, hfilter] at hdeclared
    rw [hlines, List.filter_append, List.filter_map]
    exact congrArg (fun ls => ls.map String.toList ++ []) hdeclared

/-- A function with a jump in nested blocks, and text that holds a brace. -/
def braceInText : String :=
  "def f(k):\n while k:\n  if k > 2:\n   break\n  else:\n   k = 3\n print('\x7d')\nf(1)\n"

theorem compile_balanced_braceInText :
    ∃ p t body, compile braceInText = .ok (preludeText ++ body) ∧ readSource braceInText = .ok p ∧
      p.infer = .ok t ∧
      (body.toList.splitOn '\n').foldlM Line.advance? [] = some [] ∧
      ∀ fn ∈ p.routines, ∃ s, t.signature? fn.name = some s ∧
        (body.toList.splitOn '\n').filter
          (fun l => Line.declared? l = some (spell fn.name).toList) =
          [(s.declaration ++ ";").toList, (s.declaration ++ " \x7b").toList] := by
  have hok : (compile braceInText).toBool = true := by decide +kernel
  obtain ⟨text, h⟩ := exists_of_toBool hok
  obtain ⟨p, t, body, hp, ht, rfl, hbalanced, hdeclared⟩ := compile_balanced h
  exact ⟨p, t, body, h, hp, ht, hbalanced, hdeclared⟩

end Braces
