import Braces.Proofs.Syntax.Completeness

/-!
# Reading recognises the grammar of expressions

From any position of a token list, an expression is read exactly when the tokens from there up to
some position spell it and the token at that position does not go on with it. There is at most one
such expression and one such position, and the tokens beyond it do not matter.
-/

namespace Braces

/-- The tokens from one position up to another. -/
def span (ts : List Token) (i j : Nat) : List Token := (ts.drop i).take (j - i)

/-- The token at a position does not go on with an expression that ends before it: it is no
operator, it starts no subscript, and it does not call the name before it. -/
def EndsAt (ts : List Token) (j : Nat) : Prop :=
  ∀ t, ts[j]? = some t → (∀ op : BinOp, t.kind ≠ op.kind) ∧ t.kind ≠ .symbol .openSquare ∧
    (t.kind = .symbol .openParen → ∀ name pos, ts[j - 1]? ≠ some ⟨.ident name, pos⟩)

/-- The tokens from one position up to another spell an expression, and it ends there. -/
structure SpelledAt (ts : List Token) (i : Nat) (e : Expr) (j : Nat) : Prop where
  lt : i < j
  le_length : j ≤ ts.length
  phrase : Phrase 1 (kinds (span ts i j)) e
  ends : EndsAt ts j

/-- Reading from one position gives an expression and leaves the tokens from another position on. -/
def ReadsTo (stop : Token) (ts : List Token) (i : Nat) (e : Expr) (j : Nat) : Prop :=
  j ≤ ts.length ∧ ReadsAs (readExpr stop (ts.drop i)) e (ts.drop j)

section
variable {stop : Token} {ts ts' : List Token} {e e' : Expr} {i j j' : Nat}

theorem span_append_drop (hle : i ≤ j) : span ts i j ++ ts.drop j = ts.drop i := by
  have hdrop : ts.drop j = (ts.drop i).drop (j - i) := by
    rw [List.drop_drop, Nat.add_sub_cancel' hle]
  rw [span, hdrop, List.take_append_drop]

theorem getLast?_span (hlt : i < j) (hle : j ≤ ts.length) :
    (span ts i j).getLast? = ts[j - 1]? := by
  have hlast : i + (j - i - 1) = j - 1 := by omega
  have hsome : ∃ t, ts[j - 1]? = some t := ⟨ts[j - 1], List.getElem?_eq_getElem (by omega)⟩
  obtain ⟨t, ht⟩ := hsome
  rw [span, List.getLast?_take, if_neg (by omega), List.getElem?_drop, hlast, ht, Option.some_or]

theorem BinOp.grade_pos (op : BinOp) : 0 < op.grade := by
  cases op <;> decide

theorem getElem?_of_drop_eq_cons {t : Token} {more : List Token} (h : ts.drop j = t :: more) :
    ts[j]? = some t := by
  rw [← List.head?_drop, h]
  rfl

/-- At the loosest grade any operator goes on with an expression. -/
theorem stops_span_iff (hlt : i < j) (hle : j ≤ ts.length) :
    Stops 1 (span ts i j) (ts.drop j) ↔ EndsAt ts j := by
  have hlast : (kinds (span ts i j)).getLast? = ts[j - 1]?.map (·.kind) := by
    rw [kinds, List.getLast?_map, getLast?_span hlt hle]
  constructor
  · intro h t ht
    have hdrop : ts.drop j = t :: ts.drop (j + 1) := by
      obtain ⟨hj, rfl⟩ := List.getElem?_eq_some_iff.mp ht
      exact List.drop_eq_getElem_cons hj
    refine ⟨fun op hop => ?_, h.subscript t _ hdrop, fun hparen name pos hname => ?_⟩
    · have := h.operator t _ hdrop op hop
      have := op.grade_pos
      omega
    · refine h.uncalled t _ hdrop hparen name ?_
      rw [hlast, hname]
      rfl
  · intro h
    refine ⟨fun t more heq op hop => ?_, fun t more heq => ?_,
      fun t more heq hparen name hname => ?_⟩
    · exact absurd hop ((h t (getElem?_of_drop_eq_cons heq)).1 op)
    · exact (h t (getElem?_of_drop_eq_cons heq)).2.1
    · rw [hlast, Option.map_eq_some_iff] at hname
      obtain ⟨⟨k, pos⟩, hlast, rfl⟩ := hname
      exact (h t (getElem?_of_drop_eq_cons heq)).2.2 hparen name pos hlast

theorem ReadsTo.spelledAt (h : ReadsTo stop ts i e j) : SpelledAt ts i e j := by
  obtain ⟨hle, hread⟩ := h
  obtain ⟨used, heq, hphrase, hstops⟩ := (gives_readLevel stop .disjunction _).of_reads hread
  rw [List.nil_append] at hphrase hstops
  have hne : used ≠ [] := by
    rintro rfl
    exact hphrase.ne_nil rfl
  have hlength : ts.length - i = used.length + (ts.length - j) := by
    simpa using congrArg List.length heq
  have hpos := List.length_pos_iff.mpr hne
  have hlt : i < j := by omega
  have hused : span ts i j = used := by
    rw [span, heq, List.take_left' (by omega)]
  rw [← hused] at hphrase hstops
  exact ⟨hlt, hle, hphrase, (stops_span_iff hlt hle).mp hstops⟩

theorem SpelledAt.readsTo (h : SpelledAt ts i e j) : ReadsTo stop ts i e j := by
  have hstops := (stops_span_iff h.lt h.le_length).mpr h.ends
  refine ⟨h.le_length, ?_⟩
  rw [← span_append_drop (Nat.le_of_lt h.lt)]
  exact h.phrase.follows.reads_readExpr rfl hstops

theorem ReadsTo.unique (h : ReadsTo stop ts i e j) (h' : ReadsTo stop ts i e' j') :
    e = e' ∧ j = j' := by
  obtain ⟨hvalue, hrest⟩ := h.2.unique h'.2
  refine ⟨hvalue, ?_⟩
  have hlength : ts.length - j = ts.length - j' := by simpa using congrArg List.length hrest
  have := h.1
  have := h'.1
  omega

/-- Only the tokens up to the one after an expression count. -/
theorem SpelledAt.congr (h : SpelledAt ts i e j) (heq : ts'.take (j + 1) = ts.take (j + 1)) :
    SpelledAt ts' i e j := by
  have hget : ∀ k, k ≤ j → ts'[k]? = ts[k]? := by
    intro k hk
    have hlt : k < j + 1 := Nat.lt_succ_of_le hk
    rw [← List.getElem?_take_of_lt hlt, heq, List.getElem?_take_of_lt hlt]
  have hspan : span ts' i j = span ts i j := by
    have htake : ts'.take j = ts.take j := by
      simpa [List.take_take] using congrArg (List.take j) heq
    rw [span, span, ← List.drop_take, ← List.drop_take, htake]
  have hle : j ≤ ts'.length := by
    have hlength : min (j + 1) ts'.length = min (j + 1) ts.length := by
      simpa using congrArg List.length heq
    have := h.le_length
    omega
  refine ⟨h.lt, hle, hspan ▸ h.phrase, fun t ht => ?_⟩
  rw [hget j (Nat.le_refl j)] at ht
  rw [hget (j - 1) (Nat.sub_le j 1)]
  exact h.ends t ht

end

/-- Reading recognises exactly the spelled expressions, each token list spells at most one from a
position, and what lies beyond the token after it has no influence. -/
theorem readExpr_recognises_phrases (stop : Token) (ts : List Token) (i : Nat) :
    (∀ e j, ReadsTo stop ts i e j ↔ SpelledAt ts i e j) ∧
    (∀ e e' j j', SpelledAt ts i e j → SpelledAt ts i e' j' → e = e' ∧ j = j') ∧
    ∀ e j stop' ts', ts'.take (j + 1) = ts.take (j + 1) → ReadsTo stop ts i e j →
      ReadsTo stop' ts' i e j := by
  refine ⟨fun e j => ⟨ReadsTo.spelledAt, SpelledAt.readsTo⟩, ?_, ?_⟩
  · intro e e' j j' h h'
    have hread : ReadsTo stop ts i e j := h.readsTo
    exact hread.unique h'.readsTo
  · intro e j stop' ts' heq h
    exact (h.spelledAt.congr heq).readsTo

/-- The tokens of `(f(1,) * x)`. -/
def bracketedProduct : List Token :=
  [.symbol .openParen, .ident "f", .symbol .openParen, .int 1, .symbol .comma, .symbol .closeParen,
    .symbol .star, .ident "x", .symbol .closeParen].map (⟨·, ⟨1, 1⟩⟩)

theorem spelledAt_bracketedProduct :
    SpelledAt bracketedProduct 1 (.binary .mul (.call "f" [.int 1]) (.var "x")) 8 := by
  have hcall : Phrase 6 [.ident "f", .symbol .openParen, .int 1, .symbol .comma,
      .symbol .closeParen] (.call "f" [.int 1]) :=
    .looser (.call (by decide) (by decide) (.more (.looser (.int 1) (by decide) (by decide)) .none))
      (by decide) (by decide)
  have hvar : Phrase 7 [.ident "x"] (.var "x") := .looser (.var "x") (by decide) (by decide)
  refine ⟨by decide, by decide, ?_, ?_⟩
  · exact (@Phrase.binary .mul _ _ _ _ hcall hvar).looser (by decide) (by decide)
  · rintro t ⟨⟩
    refine ⟨fun op => ?_, by decide, nofun⟩
    cases op <;> decide

/-- The product between the brackets is read, and no token after the last bracket changes that. -/
theorem readExpr_recognises_phrases_product :
    SpelledAt bracketedProduct 1 (.binary .mul (.call "f" [.int 1]) (.var "x")) 8 ∧
    ReadsTo ⟨.eof, ⟨1, 9⟩⟩ bracketedProduct 1 (.binary .mul (.call "f" [.int 1]) (.var "x")) 8 ∧
    ReadsTo ⟨.eof, ⟨1, 9⟩⟩ (bracketedProduct ++ [⟨.symbol .star, ⟨1, 9⟩⟩]) 1
      (.binary .mul (.call "f" [.int 1]) (.var "x")) 8 := by
  have h := readExpr_recognises_phrases ⟨.eof, ⟨1, 9⟩⟩ bracketedProduct 1
  have hread := (h.1 _ _).mpr spelledAt_bracketedProduct
  exact ⟨spelledAt_bracketedProduct, hread, h.2.2 _ _ _ _ rfl hread⟩

end Braces
