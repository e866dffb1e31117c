import Braces.Proofs.Emission.Within
import Braces.Proofs.Grouping.Literals

/-!
# Texts within a line

The text of an emitted expression has no newline, and a line can start with it: it does not start
with a blank or with a closing brace. Whatever braces or blanks a literal holds stand between its
quotes. No expression reads like a jump.
-/

namespace Braces.Cpp

/-- Text without a newline. -/
def Flat (s : String) : Prop := '\n' ∉ s.toList

instance (s : String) : Decidable (Flat s) := inferInstanceAs (Decidable (¬_))

/-- Text that a line can start with. -/
structure Inline (s : String) : Prop where
  flat : Flat s
  starts : ∃ c r, s.toList = c :: r ∧ c ≠ ' ' ∧ c ≠ '}'

section
variable {a b : String}

@[simp] theorem flat_append : Flat (a ++ b) ↔ Flat a ∧ Flat b := by
  simp [Flat, not_or]

theorem Inline.append (ha : Inline a) (hb : Flat b) : Inline (a ++ b) := by
  obtain ⟨c, r, heq, hblank, hbrace⟩ := ha.starts
  refine ⟨flat_append.2 ⟨ha.flat, hb⟩, c, r ++ b.toList, ?_, hblank, hbrace⟩
  rw [String.toList_append, heq, List.cons_append]

/-- What a decidable test says of fixed text. -/
def isInline (s : String) : Bool :=
  '\n' ∉ s.toList && s.toList.head?.any fun c => c ≠ ' ' && c ≠ '}'

theorem inline_of_isInline {s : String} (h : isInline s = true) : Inline s := by
  simp only [isInline, Bool.and_eq_true, decide_eq_true_eq] at h
  obtain ⟨hflat, hstarts⟩ := h
  refine ⟨hflat, ?_⟩
  cases hs : s.toList with
  | nil =>
    rw [hs] at hstarts
    cases hstarts
  | cons c r =>
    rw [hs] at hstarts
    exact ⟨c, r, rfl, by simpa using hstarts⟩

theorem flat_intercalate {sep : String} {items : List String} (hsep : Flat sep)
    (hitems : ∀ s ∈ items, Flat s) : Flat (sep.intercalate items) := by
  rw [Flat, String.toList_intercalate]
  induction items with
  | nil => exact List.not_mem_nil
  | cons s rest ih =>
    have hs : '\n' ∉ s.toList := hitems s List.mem_cons_self
    have hrest := ih fun s hs => hitems s (List.mem_cons_of_mem _ hs)
    cases rest with
    | nil => simpa using hs
    | cons s' rest =>
      rw [List.map_cons, List.map_cons, List.intercalate_cons_cons]
      rw [List.map_cons] at hrest
      simp only [List.mem_append, not_or]
      exact ⟨⟨hs, hsep⟩, hrest⟩

end

/-! ## Words and numbers -/

theorem isWordChar_ne {c d : Char} (hc : isWordChar c = true)
    (hd : isWordChar d = false) : c ≠ d := by
  rintro rfl
  rw [hc] at hd
  cases hd

theorem inline_of_isWord {s : String} (h : isWord s.toList = true) : Inline s := by
  cases hs : s.toList with
  | nil =>
    rw [hs] at h
    cases h
  | cons c r =>
    rw [hs, isWord, Bool.and_eq_true, List.all_eq_true] at h
    have hc := h.2 c List.mem_cons_self
    refine ⟨fun hmem => ?_, c, r, hs, isWordChar_ne hc (by decide), isWordChar_ne hc (by decide)⟩
    rw [hs] at hmem
    exact isWordChar_ne (h.2 _ hmem) (by decide) rfl

theorem not_mem_of_numberTail {cs : List Char} {signed : Bool}
    (h : numberTail signed cs = (cs, [])) : '\n' ∉ cs := by
  induction cs generalizing signed with
  | nil => exact List.not_mem_nil
  | cons c r ih =>
    rw [numberTail] at h
    split at h
    · next hc =>
      obtain ⟨hfst, hsnd⟩ := Prod.mk.inj h
      have hr := ih (Prod.ext (List.cons.inj hfst).2 hsnd)
      refine List.not_mem_cons_of_ne_of_not_mem ?_ hr
      rintro rfl
      revert hc
      cases signed <;> decide
    · cases h

theorem inline_of_isNumber {s : String} (h : isNumber s.toList = true) : Inline s := by
  cases hs : s.toList with
  | nil =>
    rw [hs] at h
    cases h
  | cons c r =>
    rw [hs, isNumber, Bool.and_eq_true, decide_eq_true_eq] at h
    have hc := isWordChar_of_isDigit h.1
    refine ⟨?_, c, r, hs, isWordChar_ne hc (by decide), isWordChar_ne hc (by decide)⟩
    rw [Flat, hs]
    exact List.not_mem_cons_of_ne_of_not_mem (isWordChar_ne hc (by decide)).symm
      (not_mem_of_numberTail h.2)

theorem not_mem_escapeText {cs : List Char} (h : '\n' ∉ cs) : '\n' ∉ escapeText cs := by
  fun_induction escapeText cs <;> simp_all

theorem not_mem_of_isClosed {cs : List Char} (h : isClosed cs = true) : '\n' ∉ cs := by
  fun_induction isClosed cs with
  | case1 => exact List.not_mem_nil
  | case2 | case3 => cases h
  | case4 d r hc ih =>
    simp only [Bool.and_eq_true, decide_eq_true_eq] at h
    have hr := ih h.2
    simp [Ne.symm h.1, hr]
  | case5 c r hc _ ih => exact List.not_mem_cons_of_ne_of_not_mem (Ne.symm hc) (ih h)

theorem isWord_hiddenName (stem : Stem) (n : Nat) : isWord (hiddenName stem n).toList = true := by
  have hdigits : (Nat.toDigits 10 n).all isWordChar = true :=
    List.all_eq_true.2 fun c hc => isWordChar_of_isDigit (isDigit_of_mem_toDigits hc)
  rw [toList_hiddenName]
  cases stem <;> simp [isWord, Stem.text, hdigits] <;> decide

/-! ## Expressions -/

/-- A name of the source has the form of one. -/
def Name.Plain : Name → Prop
  | .source name => isName name = true
  | .hidden _ _ => True

theorem Name.Plain.isWord : ∀ {name : Name}, name.Plain → isWord name.text.toList = true
  | .source _, h => isWord_spell h
  | .hidden stem n, _ => isWord_hiddenName stem n

theorem Name.Plain.inline {name : Name} (h : name.Plain) : Inline name.text :=
  inline_of_isWord h.isWord

namespace Expr

mutual

/-- The literals and names of an expression have written forms. -/
def Plain : Expr → Prop
  | .int n => 0 ≤ n
  | .float x => x.isWritten = true
  | .str s => isClosed s.toList = true
  | .bool _ => True
  | .var name => name.Plain
  | .binary _ l r => l.Plain ∧ r.Plain
  | .unary _ e | .group e | .cast _ e | .size e => e.Plain
  | .helper _ args | .construct _ args | .vector args | .braces args => PlainAll args
  | .call function args => isName function = true ∧ PlainAll args
  | .choose cond yes no => cond.Plain ∧ yes.Plain ∧ no.Plain

def PlainAll : List Expr → Prop
  | [] => True
  | e :: es => e.Plain ∧ PlainAll es

end

theorem plainAll_singleton {e : Expr} : PlainAll [e] ↔ e.Plain := iff_of_eq (and_true _)

theorem plainAll_pair {e e' : Expr} : PlainAll [e, e'] ↔ e.Plain ∧ e'.Plain :=
  and_congr_right fun _ => plainAll_singleton

end Expr

theorem inline_helper (h : Helper) : Inline h.text := by
  cases h <;> exact inline_of_isInline (by decide)

theorem inline_cppName (ty : Ty) : Inline ty.cppName := by
  cases ty <;> exact inline_of_isInline (by decide)

theorem inline_float {x : Double} (h : x.isWritten = true) : Inline x.text := by
  cases x with
  | finite negative m e =>
    cases negative with
    | false => exact inline_of_isNumber (isNumber_text m e)
    | true => cases h
  | infinite negative =>
    cases negative with
    | false => exact inline_of_isInline (by decide)
    | true => cases h
  | nan => cases h

theorem inline_stringLiteral {s : String} (h : isClosed s.toList = true) :
    Inline (stringLiteral s) := by
  have hflat := not_mem_escapeText (not_mem_of_isClosed h)
  refine ⟨?_, '"', escapeText s.toList ++ ['"'], String.toList_ofList, by decide, by decide⟩
  simp [Flat, stringLiteral, hflat]

/-- Text in brackets after text that a line can start with. -/
theorem Inline.bracketed {head close : String} {items : List String} (hhead : Inline head)
    (hitems : ∀ s ∈ items, Flat s) (hclose : Flat close) : Inline (head ++ commas items ++ close) :=
  (hhead.append (flat_intercalate (by decide) hitems)).append hclose

namespace Expr

mutual

/-- The text of an expression stands within a line and can start one. -/
theorem inline_text : ∀ {e : Expr}, e.Plain → Inline e.text
  | .int n, h => inline_of_isNumber (isNumber_intLiteral h)
  | .float _, h => inline_float h
  | .str _, h => inline_stringLiteral h
  | .bool b, _ => by cases b <;> exact inline_of_isInline (by decide)
  | .var _, h => Name.Plain.inline h
  | .binary op l r, h => by
    have hop : Flat op.cppSymbol := by cases op <;> decide
    have hl := inline_text h.1
    have hr := inline_text h.2
    exact (((hl.append (by decide)).append hop).append (by decide)).append hr.flat
  | .unary op e, h => by
    have hop : Inline op.cppSymbol := by cases op <;> exact inline_of_isInline (by decide)
    exact hop.append (inline_text (e := e) h).flat
  | .group e, h => by
    have hopen : Inline "(" := inline_of_isInline (by decide)
    exact (hopen.append (inline_text (e := e) h).flat).append (by decide)
  | .helper head args, h =>
    ((inline_helper head).append (by decide)).bracketed (flat_texts h) (by decide)
  | .call _ args, h =>
    ((inline_of_isWord (isWord_spell h.1)).append (by decide)).bracketed
      (flat_texts h.2) (by decide)
  | .construct ty args, h =>
    ((inline_cppName ty).append (by decide)).bracketed (flat_texts h) (by decide)
  | .cast ty e, h => by
    have hopen : Inline "static_cast<" := inline_of_isInline (by decide)
    have hty := (inline_cppName ty).flat
    exact (((hopen.append hty).append (by decide)).append
      (inline_text (e := e) h).flat).append (by decide)
  | .size e, h => (inline_text (e := e) h).append (by decide)
  | .vector es, h => by
    have hopen : Inline (Ty.list.cppName ++ "\x7b") := inline_of_isInline (by decide)
    exact hopen.bracketed (flat_texts h) (by decide)
  | .braces es, h => by
    have hopen : Inline "\x7b" := inline_of_isInline (by decide)
    exact hopen.bracketed (flat_texts h) (by decide)
  | .choose cond yes no, h => by
    have hcond := inline_text h.1
    have hyes := inline_text h.2.1
    have hno := inline_text h.2.2
    exact (((hcond.append (by decide)).append hyes.flat).append (by decide)).append hno.flat

theorem flat_texts : ∀ {es : List Expr}, PlainAll es → ∀ s ∈ texts es, Flat s
  | [], _, s, hs => nomatch hs
  | e :: es, h, s, hs => by
    rcases List.mem_cons.1 hs with rfl | hs
    · exact (inline_text h.1).flat
    · exact flat_texts h.2 s hs

end

/-! ### Jumps -/

theorem ne_keyword_of_mem {s : String} {c : Char} (h : c ∈ s.toList) (hc : c.isLower = false)
    (j : Jump) : s ≠ j.keyword := by
  rintro rfl
  have hlower : j.keyword.toList.all Char.isLower = true := by cases j <;> decide
  rw [List.all_eq_true.1 hlower c h] at hc
  cases hc

theorem ne_keyword_of_isNumber {s : String} (h : isNumber s.toList = true) (j : Jump) :
    s ≠ j.keyword := by
  rintro rfl
  revert h
  cases j <;> decide

/-- No expression reads like a jump. Whatever is neither a name nor a truth value has a character
that no keyword has. -/
theorem text_ne_keyword {e : Expr} (h : e.Plain) (j : Jump) : e.text ≠ j.keyword := by
  cases e with
  | int n => exact ne_keyword_of_isNumber (isNumber_intLiteral h) j
  | float x =>
    cases x with
    | finite negative m e =>
      cases negative with
      | false => exact ne_keyword_of_isNumber (isNumber_text m e) j
      | true => cases h
    | infinite negative => cases negative <;> cases j <;> decide
    | nan => cases h
  | bool b => cases b <;> cases j <;> decide
  | var name =>
    cases name with
    | source name =>
      intro heq
      refine spell_not_mem_reserved name ?_
      rw [show spell name = j.keyword from heq]
      cases j <;> decide
    | hidden stem n =>
      refine ne_keyword_of_mem (c := '_') ?_ (by decide) j
      simp [text, Name.text, toList_hiddenName]
  | str s => exact ne_keyword_of_mem (c := '"') (by simp [text, stringLiteral]) (by decide) j
  | binary op l r => exact ne_keyword_of_mem (c := ' ') (by simp [text]) (by decide) j
  | choose cond yes no => exact ne_keyword_of_mem (c := ' ') (by simp [text]) (by decide) j
  | unary op e =>
    cases op with
    | plus => exact ne_keyword_of_mem (c := '+') (by simp [text, UnOp.cppSymbol]) (by decide) j
    | neg => exact ne_keyword_of_mem (c := '-') (by simp [text, UnOp.cppSymbol]) (by decide) j
    | not => exact ne_keyword_of_mem (c := '!') (by simp [text, UnOp.cppSymbol]) (by decide) j
  | vector es | braces es => exact ne_keyword_of_mem (c := '}') (by simp [text]) (by decide) j
  | _ => exact ne_keyword_of_mem (c := '(') (by simp [text]) (by decide) j

end Expr

end Cpp

/-! ## Emitted expressions -/

namespace Frame

variable {f : Frame} {e : Expr} {c : Cpp.Expr}

@[simp] theorem plain_operand {parent : Nat} {right : Bool} :
    (f.operand parent right e c).Plain ↔ c.Plain := by
  unfold operand
  split <;> rfl

@[simp] theorem plain_atom : (atom e c).Plain ↔ c.Plain := by
  unfold atom
  split <;> rfl

@[simp] theorem plain_sequence : (sequence e c).Plain ↔ c.Plain := by
  unfold sequence
  split
  · exact Cpp.Expr.plainAll_singleton
  · exact plain_atom

@[simp] theorem plain_truth : (f.truth e c).Plain ↔ c.Plain := by
  unfold truth
  split
  · exact Cpp.Expr.plainAll_singleton
  · rfl

@[simp] theorem plain_condition {parent : Nat} {right : Bool} :
    (f.condition parent right e c).Plain ↔ c.Plain := by
  unfold condition
  split
  · exact Cpp.Expr.plainAll_singleton
  · exact plain_operand

@[simp] theorem plain_argument {p : Param} : (argument p e c).Plain ↔ c.Plain := by
  unfold argument
  split
  · rfl
  · exact Cpp.Expr.plainAll_singleton
  · rfl

@[simp] theorem plain_element {ci : Cpp.Expr} : (element e c ci).Plain ↔ c.Plain ∧ ci.Plain :=
  Cpp.Expr.plainAll_pair.trans (and_congr_left fun _ => plain_sequence)

theorem plain_infixed {op : BinOp} {l r : Expr} {cl cr : Cpp.Expr} :
    (f.infixed op l r cl cr).Plain ↔ cl.Plain ∧ cr.Plain := by
  unfold infixed
  refine and_congr ?_ plain_operand
  split
  · exact Cpp.Expr.plainAll_singleton.trans plain_operand
  · exact plain_operand

@[simp] theorem plain_combined {op : BinOp} {l r : Expr} {cl cr : Cpp.Expr} {sh : Shape} :
    (f.combined op l r cl cr sh).Plain ↔ cl.Plain ∧ cr.Plain := by
  cases sh with
  | logical => exact and_congr plain_condition plain_condition
  | plain => exact plain_infixed
  | repeatRight => exact Cpp.Expr.plainAll_pair.trans and_comm
  | quotient => exact and_congr_right fun _ => plain_operand
  | floatFloor => exact Cpp.Expr.plainAll_singleton.trans (and_congr plain_operand plain_operand)
  | _ => exact Cpp.Expr.plainAll_pair

mutual

theorem Emits.plain : ∀ {e : Expr} {c : Cpp.Expr}, f.Emits e c →
    (∀ e' ∈ e.parts, e'.isWritten = true) → c.Plain
  | _, _, .int n, h => of_decide_eq_true (p := 0 ≤ n) (h _ (Expr.mem_parts_self _))
  | _, _, .float _, h | _, _, .str _, h | _, _, .var _, h => h _ (Expr.mem_parts_self _)
  | _, _, .bool _, _ => trivial
  | _, _, .binary _ hl hr, h =>
    plain_combined.2 ⟨hl.plain fun e he => h e (by simp [Expr.parts, he]),
      hr.plain fun e he => h e (by simp [Expr.parts, he])⟩
  | _, _, .not he, h => by
    have hc := he.plain fun e he => h e (by simp [Expr.parts, he])
    rw [Cpp.Expr.Plain]
    split
    · exact ⟨hc, trivial⟩
    · exact plain_atom.2 hc
  | _, _, .sign _ _ he, h => plain_atom.2 (he.plain fun e he => h e (by simp [Expr.parts, he]))
  | _, _, .list _ hes, h => hes.plain fun e he => h e (by simp [Expr.parts, he])
  | _, _, .index _ ht hp, h => by
    have hct := ht.plain fun e he => h e (by simp [Expr.parts, he])
    have hci := hp.plain fun e he => h e (by simp [Expr.parts, he])
    split
    · exact ⟨Int.one_nonneg, plain_element.2 ⟨hct, hci⟩, trivial⟩
    · exact plain_element.2 ⟨hct, hci⟩
  | _, _, .emptyText, _ => trivial
  | _, _, .text he, h =>
    ⟨he.plain fun e he => h e (by simp [Expr.parts, Expr.partsOf, he]), trivial⟩
  | _, _, .call _ _ hargs, h =>
    ⟨h _ (Expr.mem_parts_self _), hargs.plain fun e he => h e (by simp [Expr.parts, he])⟩
  | _, _, .len _ he, h => plain_sequence.2 (he.plain fun e he => h e (by simp [Expr.parts, he]))
  | _, _, .range hstart hstop hstep, h => by
    have hcstart := hstart.plain fun e he => h e (by simp [Expr.parts, he])
    have hstride := hstep.plain fun e he => h e (by simp [Expr.parts, he])
    cases hstop with
    | absent => exact ⟨Int.le_refl 0, hcstart, hstride, trivial⟩
    | present he =>
      have hc := he.plain fun e he => h e (by simp [Expr.parts, Expr.partsOfOption, he])
      exact ⟨hcstart, hc, hstride, trivial⟩

theorem EmitsAll.plain : ∀ {es : List Expr} {cs : List Cpp.Expr}, f.EmitsAll es cs →
    (∀ e ∈ Expr.partsOf es, e.isWritten = true) → Cpp.Expr.PlainAll cs
  | _, _, .nil, _ => trivial
  | _, _, .cons he hes, h =>
    ⟨he.plain fun e he => h e (by simp [Expr.partsOf, he]),
      hes.plain fun e he => h e (by simp [Expr.partsOf, he])⟩

theorem EmitsOption.plain : ∀ {e : Option Expr} {c : Option Cpp.Expr}, f.EmitsOption e c →
    (∀ e' ∈ Expr.partsOfOption e, e'.isWritten = true) → (c.getD (.int 1)).Plain
  | _, _, .absent, _ => Int.one_nonneg
  | _, _, .present he, h => he.plain h

theorem EmitsArgs.plain : ∀ {name : String} {ps : List Param} {args : List Expr}
    {cs : List Cpp.Expr}, f.EmitsArgs name ps args cs →
    (∀ e ∈ Expr.partsOf args, e.isWritten = true) → Cpp.Expr.PlainAll cs
  | _, _, _, _, .done, _ | _, _, _, _, .surplus, _ => trivial
  | _, _, _, _, .next _ he hargs, h =>
    ⟨plain_argument.2 (he.plain fun e he => h e (by simp [Expr.partsOf, he])),
      hargs.plain fun e he => h e (by simp [Expr.partsOf, he])⟩

end

end Frame

end Braces
