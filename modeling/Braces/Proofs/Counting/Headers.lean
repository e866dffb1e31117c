import Braces.Proofs.Grouping.Emission

/-!
# Heads of counting loops

The grammar of the line that opens a counting loop, on top of the grammar of expressions: the
variables that it declares with what they start from, its condition, and how its counter goes on. A
condition is one expression, or a choice between two in parentheses. A line is read in one way at
most. An operator of level four that stands before an expression of the same or of a lower level is
read as part of its first operand.
-/

namespace Braces.Cpp

/-- The condition of a head. -/
inductive Test where
  | plain (t : Tree)
  | choose (cond yes no : Tree)

/-- What the head of a counting loop is read as. -/
structure Header where
  /-- The variables that it declares, with what they start from. -/
  inits : List (String × Tree)
  test : Test
  counter : String
  /-- What is added to the counter after every pass, one if nothing is given. -/
  stride : Option Tree

inductive ReadsInits : List Lexeme → List (String × Tree) → Prop
  | one {w ts t} : Derives 1 ts t → ReadsInits (.word w :: .op "=" :: ts) [(w, t)]
  | more {w ts t us i is} : Derives 1 ts t → ReadsInits us (i :: is) →
      ReadsInits (.word w :: .op "=" :: (ts ++ .comma :: us)) ((w, t) :: i :: is)

inductive ReadsTest : List Lexeme → Test → Prop
  | plain {ts t} : Derives 1 ts t → ReadsTest ts (.plain t)
  | choose {cs ys ns c y n} : Derives 1 cs c → Derives 1 ys y → Derives 1 ns n →
      ReadsTest (.openParen :: (cs ++ .op "?" :: (ys ++ .op ":" :: (ns ++ [.closeParen]))))
        (.choose c y n)

inductive ReadsAdvance : List Lexeme → String → Option Tree → Prop
  | increment {w} : ReadsAdvance [.word w, .op "++"] w none
  | add {w ts t} : Derives 1 ts t → ReadsAdvance (.word w :: .op "+=" :: ts) w (some t)

/-- The lexemes of a head, from those of its three parts. -/
def headLexemes (is cs as : List Lexeme) : List Lexeme :=
  .word "for" :: .openParen :: .word "long" :: .word "long" ::
    (is ++ .op ";" :: (cs ++ .op ";" :: (as ++ [.closeParen, .openBrace])))

/-- How the lexemes of a line are read as the head of a counting loop. -/
inductive ReadsHeader : List Lexeme → Header → Prop
  | intro {is cs as H} : ReadsInits is H.inits → ReadsTest cs H.test →
      ReadsAdvance as H.counter H.stride → ReadsHeader (headLexemes is cs as) H

/-! ## A head is read in one way at most -/

section Unique
variable {ts ts' us rest rest' : List Lexeme} {e e' : Tree}

theorem not_continues_nil {k : Nat} : ¬ Continues k [] := id

theorem not_continues_op {k : Nat} {op : String} (hop : level? op = none) :
    ¬ Continues k (.op op :: rest) := by
  rintro ⟨j, hj, -⟩
  rw [hop] at hj
  cases hj

/-- Two expressions at the start of the same lexemes are one, if nothing goes on with either. -/
theorem Derives.unique_before (h : Derives 1 ts e) (h' : Derives 1 ts' e')
    (hrest : ¬ Continues 1 rest) (hrest' : ¬ Continues 1 rest')
    (heq : ts ++ rest = ts' ++ rest') : e = e' ∧ rest = rest' := by
  have hends := h.follows.ends (by omega) hrest
  have hends' := h'.follows.ends (by omega) hrest'
  rw [heq] at hends
  exact Prod.mk.inj (hends.unique hends')

mutual

/-- What is neither an infix nor a prefix operator stands in no expression. -/
theorem Derives.not_mem_op {op : String} (hop : level? op = none) (hsigns : op ∉ prefixOps) :
    ∀ {k : Nat} {ts : List Lexeme} {e : Tree}, Derives k ts e → .op op ∉ ts
  | _, _, _, .climb _ h => h.not_mem_op hop hsigns
  | _, _, _, .binary hop' hl hr => by
    have hl := hl.not_mem_op hop hsigns
    have hr := hr.not_mem_op hop hsigns
    have hne : ∀ {op' k}, level? op' = some k → op ≠ op' := by
      rintro op' k hk rfl
      rw [hop] at hk
      cases hk
    simp [hl, hr, hne hop']
  | _, _, _, .prefixed hop' h => by
    have h := h.not_mem_op hop hsigns
    have hne := ne_of_mem_of_not_mem hop' hsigns
    simp [h, hne.symm]
  | _, _, _, .call hf hes => by
    simp [hf.not_mem_op hop hsigns, hes.not_mem_op hop hsigns]
  | _, _, _, .member h => by simp [h.not_mem_op hop hsigns]
  | _, _, _, .atom hl => by
    intro hmem
    rw [← List.mem_singleton.mp hmem] at hl
    cases hl
  | _, _, _, .group h => by simp [h.not_mem_op hop hsigns]
  | _, _, _, @Derives.cast ty _ _ _ h => by
    have hless : op ≠ "<" := by rintro rfl; cases hop
    have hgreater : op ≠ ">" := by rintro rfl; cases hop
    have htype : Lexeme.op op ∉
        (if ty = .float then [.word "double"] else [.word "long", .word "long"]) := by
      split <;> simp
    simp [castHead, h.not_mem_op hop hsigns, hless, hgreater, htype]
  | _, _, _, .vector hes => by
    have hless : op ≠ "<" := by rintro rfl; cases hop
    have hgreater : op ≠ ">" := by rintro rfl; cases hop
    simp [vectorHead, hes.not_mem_op hop hsigns, hless, hgreater]

theorem Listed.not_mem_op {op : String} (hop : level? op = none) (hsigns : op ∉ prefixOps) :
    ∀ {ts : List Lexeme} {es : List Tree}, Listed ts es → .op op ∉ ts
  | _, _, .none => List.not_mem_nil
  | _, _, .one h => h.not_mem_op hop hsigns
  | _, _, .more h hes => by simp [h.not_mem_op hop hsigns, hes.not_mem_op hop hsigns]

end

theorem ReadsInits.unique {is is' : List (String × Tree)} (h : ReadsInits ts is)
    (h' : ReadsInits ts is') : is = is' := by
  induction h generalizing is' with
  | @one w ts t ht =>
    cases h' with
    | one ht' => rw [ht.unique ht']
    | @more _ ts' _ us _ _ ht' _ =>
      have hsame := ht.unique_before ht' not_continues_nil (not_continues_closing (.inr (.inr rfl)))
        (List.append_nil (ts' ++ .comma :: us))
      cases hsame.2
  | @more w ts t us i is ht his ih =>
    generalize hts : Lexeme.word w :: .op "=" :: (ts ++ .comma :: us) = vs at h'
    cases h' with
    | one ht' =>
      cases hts
      have hsame := ht.unique_before ht' (not_continues_closing (.inr (.inr rfl))) not_continues_nil
        (List.append_nil _).symm
      cases hsame.2
    | more ht' his' =>
      simp only [List.cons.injEq, Lexeme.word.injEq, true_and] at hts
      obtain ⟨rfl, hts⟩ := hts
      obtain ⟨rfl, hrest⟩ := ht.unique_before ht' (not_continues_closing (.inr (.inr rfl)))
        (not_continues_closing (.inr (.inr rfl))) hts
      cases hrest
      rw [ih his']

theorem ReadsTest.unique {t t' : Test} (h : ReadsTest ts t) (h' : ReadsTest ts t') : t = t' := by
  have hquestion : ∀ {k ts e}, Derives k ts e → Lexeme.op "?" ∉ ts :=
    fun h => h.not_mem_op (by decide) (by decide)
  cases h with
  | plain ht =>
    cases h' with
    | plain ht' => rw [ht.unique ht']
    | choose _ _ _ => exact absurd ht (fun ht => hquestion ht (by simp))
  | @choose cs ys ns c y n hc hy hn =>
    generalize hts : Lexeme.openParen ::
      (cs ++ .op "?" :: (ys ++ .op ":" :: (ns ++ [.closeParen]))) = vs at h'
    cases h' with
    | plain ht' =>
      refine absurd ht' (fun ht' => hquestion ht' ?_)
      simp [← hts]
    | choose hc' hy' hn' =>
      have hop : ∀ {rest}, ¬ Continues 1 (.op "?" :: rest) := not_continues_op (by decide)
      have hcolon : ∀ {rest}, ¬ Continues 1 (.op ":" :: rest) := not_continues_op (by decide)
      have hclose : ∀ {rest}, ¬ Continues 1 (.closeParen :: rest) :=
        not_continues_closing (.inl rfl)
      obtain ⟨rfl, hts⟩ := hc.unique_before hc' hop hop (List.cons.inj hts).2
      obtain ⟨rfl, hts⟩ := hy.unique_before hy' hcolon hcolon (List.cons.inj hts).2
      obtain ⟨rfl, -⟩ := hn.unique_before hn' hclose hclose (List.cons.inj hts).2
      rfl

theorem ReadsAdvance.unique {w w' : String} {d d' : Option Tree} (h : ReadsAdvance ts w d)
    (h' : ReadsAdvance ts w' d') : w = w' ∧ d = d' := by
  cases h with
  | @increment w =>
    generalize hts : [Lexeme.word w, .op "++"] = us at h'
    cases h' with
    | increment =>
      cases hts
      exact ⟨rfl, rfl⟩
    | add _ => simp at hts
  | @add w ts _ ht =>
    generalize hts : Lexeme.word w :: .op "+=" :: ts = us at h'
    cases h' with
    | increment => simp at hts
    | add ht' =>
      cases hts
      exact ⟨rfl, congrArg some (ht.unique ht')⟩

/-- No part of a head holds the mark that divides them. -/
theorem Derives.not_mem_divider {k : Nat} (h : Derives k ts e) : .op ";" ∉ ts :=
  h.not_mem_op (by decide) (by decide)

theorem ReadsInits.not_mem_divider {is : List (String × Tree)} (h : ReadsInits ts is) :
    .op ";" ∉ ts := by
  induction h with
  | one ht => simp [ht.not_mem_divider]
  | more ht _ ih => simp [ht.not_mem_divider, ih]

theorem ReadsTest.not_mem_divider {t : Test} (h : ReadsTest ts t) : .op ";" ∉ ts := by
  cases h with
  | plain ht => exact ht.not_mem_divider
  | choose hc hy hn => simp [hc.not_mem_divider, hy.not_mem_divider, hn.not_mem_divider]

theorem divided_inj {t : Lexeme} (ht : t ∉ ts) (ht' : t ∉ ts')
    (h : ts ++ t :: rest = ts' ++ t :: rest') : ts = ts' ∧ rest = rest' := by
  induction ts generalizing ts' with
  | nil =>
    cases ts' with
    | nil => exact ⟨rfl, (List.cons.inj h).2⟩
    | cons u us => exact absurd (List.cons.inj h).1 (List.ne_of_not_mem_cons ht')
  | cons u us ih =>
    cases ts' with
    | nil => exact absurd (List.cons.inj h).1.symm (List.ne_of_not_mem_cons ht)
    | cons u' us' =>
      obtain ⟨rfl, htail⟩ := List.cons.inj h
      obtain ⟨rfl, hrest⟩ :=
        ih (List.not_mem_of_not_mem_cons ht) (List.not_mem_of_not_mem_cons ht') htail
      exact ⟨rfl, hrest⟩

theorem ReadsHeader.unique {H H' : Header} (h : ReadsHeader ts H) (h' : ReadsHeader ts H') :
    H = H' := by
  cases h with
  | @intro is cs as H his hcs has =>
    generalize hts : headLexemes is cs as = us at h'
    cases h' with
    | @intro is' cs' as' H' his' hcs' has' =>
      simp only [headLexemes, List.cons.injEq, true_and] at hts
      obtain ⟨rfl, hcut⟩ := divided_inj his.not_mem_divider his'.not_mem_divider hts
      obtain ⟨rfl, hcut'⟩ := divided_inj hcs.not_mem_divider hcs'.not_mem_divider hcut
      obtain rfl := List.append_cancel_right hcut'
      obtain ⟨inits, test, counter, stride⟩ := H
      obtain ⟨inits', test', counter', stride'⟩ := H'
      obtain ⟨rfl, rfl⟩ := has.unique has'
      obtain rfl := his.unique his'
      obtain rfl := hcs.unique hcs'
      rfl

end Unique

/-! ## An operator before a looser expression -/

/-- The first operand of an expression takes what stands before it with an operator of level four,
so that an operator is at the root again. -/
theorem Derives.drawn {op : String} {w : String} (hop : level? op = some 4)
    (hw : (Lexeme.word w).isOperand = true) :
    ∀ {k : Nat} {ts : List Lexeme} {e : Tree}, Derives k ts e → k ≤ 4 →
      ∃ op' l r, Derives k (.word w :: .op op :: ts) (.binary op' l r)
  | k, ts, e, .climb _ h, hk => by
    obtain rfl | hlt := Nat.eq_or_lt_of_le hk
    · have hword : Derives 4 [.word w] (.atom (.word w)) :=
        (Derives.atom hw).lower (by omega) (by omega)
      exact ⟨op, _, e, .binary hop hword h⟩
    · obtain ⟨op', l, r, hdrawn⟩ := h.drawn hop hw hlt
      exact ⟨op', l, r, .climb (by omega) hdrawn⟩
  | _, _, _, @Derives.binary k op' ls rs l r hop' hl hr, hk => by
    obtain ⟨_, _, _, hdrawn⟩ := hl.drawn hop hw hk
    exact ⟨op', _, r, .binary hop' hdrawn hr⟩

end Braces.Cpp
