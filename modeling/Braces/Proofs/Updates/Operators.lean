import Braces.Proofs.Unpacking.Reading
import Braces.Proofs.WellShaped

/-!
# Augmented assignments that are read

Every operator of an augmented assignment stands between a target and a value, and the program has
the statement that the three are rewritten to: an assignment to the target of what the operator
makes of the target and the value.
-/

namespace Braces

/-- Tokens without an operator of an augmented assignment. -/
def Unaugmented (ks : List Kind) : Prop := ∀ k ∈ ks, augmented? k = none

namespace Unaugmented

variable {k : Kind} {ks ks' : List Kind}

theorem nil : Unaugmented [] := List.forall_mem_nil _

theorem cons (hk : augmented? k = none) (h : Unaugmented ks) : Unaugmented (k :: ks) :=
  List.forall_mem_cons.2 ⟨hk, h⟩

theorem append (h : Unaugmented ks) (h' : Unaugmented ks') : Unaugmented (ks ++ ks') :=
  List.forall_mem_append.2 ⟨h, h'⟩

/-- Tokens with a closing bracket after them. -/
theorem closed (h : Unaugmented ks) (hk : augmented? k = none) : Unaugmented (ks ++ [k]) :=
  h.append (nil.cons hk)

end Unaugmented

theorem augmented?_kind (op : BinOp) : augmented? op.kind = none := by
  cases op <;> rfl

mutual

/-- No expression has such an operator. -/
theorem Phrase.unaugmented : ∀ {n : Nat} {ks : List Kind} {e : Expr}, Phrase n ks e → Unaugmented ks
  | _, _, _, .tighter _ h => h.unaugmented
  | _, _, _, .binary hl hr => hl.unaugmented.append (hr.unaugmented.cons (augmented?_kind _))
  | _, _, _, .not h => h.unaugmented.cons rfl
  | _, _, _, .plus h => h.unaugmented.cons rfl
  | _, _, _, .minus h => h.unaugmented.cons rfl
  | _, _, _, .index ht hp => ht.unaugmented.append ((hp.unaugmented.closed rfl).cons rfl)
  | _, _, _, .int _ | _, _, _, .float _ | _, _, _, .str _ | _, _, _, .bool _ | _, _, _, .var _ =>
    Unaugmented.nil.cons rfl
  | _, _, _, .group h => (h.unaugmented.closed rfl).cons rfl
  | _, _, _, .list h => (h.unaugmented.closed rfl).cons rfl
  | _, _, _, .call _ _ h => ((h.unaugmented.closed rfl).cons rfl).cons rfl
  | _, _, _, .len h => ((h.unaugmented.closed rfl).cons rfl).cons rfl
  | _, _, _, .rangeTo h | _, _, _, .rangeFrom h | _, _, _, .rangeBy h =>
    ((h.unaugmented.closed rfl).cons rfl).cons rfl

theorem Phrases.unaugmented : ∀ {ks : List Kind} {es : List Expr}, Phrases ks es → Unaugmented ks
  | _, _, .none => .nil
  | _, _, .last h => h.unaugmented
  | _, _, .more h hs => h.unaugmented.append (hs.unaugmented.cons rfl)

end

/-! ## Statements for all of them -/

/-- The operator between some tokens makes an augmented assignment of a target before it and a value
after it, which the statements have in rewritten form. -/
def Rewritten (op : BinOp) (pre post : List Kind) (ss : List Stmt) (place : Place)
    (value : Expr) : Prop :=
  (∃ left, left <:+ pre ∧ Phrase 1 left place.expr) ∧
    (∃ right, right <+: post ∧ Phrase 1 right value) ∧
    place.store (.combine op place.expr value) ∈ allStmts ss

/-- All operators of augmented assignments among the tokens are rewritten. -/
def AllRewritten (ks : List Kind) (ss : List Stmt) : Prop :=
  ∀ pre k post op, ks = pre ++ k :: post → augmented? k = some op →
    ∃ place value, Rewritten op pre post ss place value

namespace AllRewritten

variable {ks ks' : List Kind} {ss ss' : List Stmt}

theorem of_unaugmented (h : Unaugmented ks) : AllRewritten ks ss := by
  rintro pre k post op rfl hk
  rw [h k (by simp)] at hk
  cases hk

theorem mono (h : AllRewritten ks ss) (hsub : allStmts ss ⊆ allStmts ss') :
    AllRewritten ks ss' := by
  intro pre k post op hks hk
  obtain ⟨place, value, hleft, hright, hmem⟩ := h pre k post op hks hk
  exact ⟨place, value, hleft, hright, hsub hmem⟩

theorem append (h : AllRewritten ks ss) (h' : AllRewritten ks' ss) :
    AllRewritten (ks ++ ks') ss := by
  intro pre k post op hks hk
  obtain ⟨more, rfl, hmore⟩ | ⟨more, rfl, hmore⟩ := List.append_eq_append_iff.1 hks
  · obtain ⟨place, value, ⟨left, hleft, hphrase⟩, hright⟩ := h' more k post op hmore hk
    exact ⟨place, value, ⟨left, hleft.trans (List.suffix_append _ _), hphrase⟩, hright⟩
  · cases more with
    | nil =>
      obtain ⟨place, value, ⟨left, hleft, hphrase⟩, hright⟩ := h' [] k post op hmore.symm hk
      exact ⟨place, value, ⟨left, hleft.trans (List.nil_suffix), hphrase⟩, hright⟩
    | cons k' more =>
      cases hmore
      obtain ⟨place, value, hleft, ⟨right, hright, hphrase⟩, hmem⟩ := h pre k more op rfl hk
      exact ⟨place, value, hleft, ⟨right, hright.trans (List.prefix_append _ _), hphrase⟩, hmem⟩

/-- Neither the target nor the value has another such operator. -/
theorem update {k : Kind} {op : BinOp} {place : Place} {value : Expr}
    (htarget : Phrase 1 ks place.expr) (hk : augmented? k = some op) (hvalue : Phrase 1 ks' value) :
    AllRewritten (ks ++ k :: ks') [place.store (.combine op place.expr value)] := by
  have hself : Rewritten op ks ks' [place.store (.combine op place.expr value)] place value :=
    ⟨⟨ks, List.suffix_rfl, htarget⟩, ⟨ks', List.prefix_rfl, hvalue⟩,
      mem_allStmts_singleton.2 (.inl rfl)⟩
  intro pre k₁ post op₁ hks hk₁
  obtain ⟨more, rfl, hmore⟩ | ⟨more, rfl, hmore⟩ := List.append_eq_append_iff.1 hks
  · cases more with
    | nil =>
      cases hmore
      cases hk.symm.trans hk₁
      rw [List.append_nil]
      exact ⟨place, value, hself⟩
    | cons k' more =>
      cases hmore
      rw [hvalue.unaugmented k₁ (by simp)] at hk₁
      cases hk₁
  · cases more with
    | nil =>
      cases hmore
      cases hk.symm.trans hk₁
      rw [List.append_nil] at hself
      exact ⟨place, value, hself⟩
    | cons k' more =>
      cases hmore
      rw [htarget.unaugmented k₁ (by simp)] at hk₁
      cases hk₁

end AllRewritten

/-- The tokens before the rest are used up, with all their augmented assignments rewritten. -/
def Uses (ks rest : List Kind) (ss : List Stmt) : Prop :=
  ∃ used, ks = used ++ rest ∧ AllRewritten used ss

theorem allStmts_append (ss ss' : List Stmt) :
    allStmts (ss ++ ss') = allStmts ss ++ allStmts ss' := by
  induction ss with
  | nil => rfl
  | cons s ss ih =>
    rw [List.cons_append, allStmts, allStmts, ih, List.cons_append, List.append_assoc]

namespace Uses

variable {k : Kind} {ks ks' mid rest : List Kind} {ss ss' : List Stmt}

theorem refl : Uses ks ks ss := ⟨[], rfl, .of_unaugmented .nil⟩

theorem mono (h : Uses ks rest ss) (hsub : allStmts ss ⊆ allStmts ss') : Uses ks rest ss' := by
  obtain ⟨used, rfl, hused⟩ := h
  exact ⟨used, rfl, hused.mono hsub⟩

theorem prepend (h : Uses ks rest ss) (h' : Unaugmented ks') : Uses (ks' ++ ks) rest ss := by
  obtain ⟨used, rfl, hused⟩ := h
  exact ⟨ks' ++ used, (List.append_assoc _ _ _).symm, (AllRewritten.of_unaugmented h').append hused⟩

theorem cons (h : Uses ks rest ss) (hk : augmented? k = none) : Uses (k :: ks) rest ss :=
  h.prepend (.cons hk .nil)

theorem trans (h : Uses ks mid ss) (h' : Uses mid rest ss') : Uses ks rest (ss ++ ss') := by
  obtain ⟨used, rfl, hused⟩ := h
  obtain ⟨used', rfl, hused'⟩ := h'
  refine ⟨used ++ used', (List.append_assoc _ _ _).symm, (hused.mono ?_).append (hused'.mono ?_)⟩
  · rw [allStmts_append]
    exact List.subset_append_left _ _
  · rw [allStmts_append]
    exact List.subset_append_right _ _

/-- Statements within another one. -/
theorem within {s : Stmt} (h : Uses ks rest ss) (hsub : allStmts ss ⊆ s.inner) : Uses ks rest [s] :=
  h.mono fun _ hmem => mem_allStmts_singleton.2 (.inr (hsub hmem))

end Uses

/-! ## Sentences -/

namespace Sentence

theorem Simple.allRewritten :
    ∀ {ks : List Kind} {s : Sentence}, Simple ks s → AllRewritten ks s.lower
  | _, _, .unpack h hs hvalues _ =>
    .of_unaugmented (h.unaugmented.append
      ((hs.unaugmented.append (hvalues.unaugmented.cons rfl)).cons rfl))
  | _, _, .assign h hvalue => .of_unaugmented (h.unaugmented.append (hvalue.unaugmented.cons rfl))
  | _, _, .update h hop hvalue => .update h hop hvalue
  | _, _, .eval h => .of_unaugmented h.unaugmented
  | _, _, .print h => .of_unaugmented (((h.unaugmented.closed rfl).cons rfl).cons rfl)
  | _, _, .retValue h => .of_unaugmented (h.unaugmented.cons rfl)
  | _, _, .ret | _, _, .pass | _, _, .break_ | _, _, .continue_ => .of_unaugmented (.cons rfl .nil)

theorem Simple.uses {ks : List Kind} {s : Sentence} (h : Simple ks s) (rest : List Kind) :
    Uses (ks ++ rest) rest s.lower :=
  ⟨ks, rfl, h.allRewritten⟩

theorem Later.uses {ks : List Kind} {ss : List Sentence} (h : Later ks ss) (rest : List Kind) :
    Uses (ks ++ rest) rest (lowerAll ss) := by
  induction h with
  | none => exact .refl
  | closed => exact Uses.refl.cons rfl
  | more h _ ih =>
    rw [lowerAll, List.cons_append, List.append_assoc]
    exact ((h.uses _).trans ih).cons rfl

theorem LineEnd.uses {ks rest : List Kind} (h : LineEnd ks rest) (ss : List Stmt) :
    Uses ks rest ss := by
  cases h with
  | newline => exact Uses.refl.cons rfl
  | dedent | eof | nothing => exact .refl

theorem Line.uses {ks rest : List Kind} {ss : List Sentence} (h : Line ks ss rest) :
    Uses ks rest (lowerAll ss) := by
  obtain ⟨h, hs, hend⟩ := h
  rw [lowerAll, ← List.append_nil (lowerAll _)]
  exact (h.uses _).trans ((hs.uses _).trans (hend.uses []))

mutual

theorem Block.uses : ∀ {ks : List Kind} {ss : List Sentence} {rest : List Kind}, Block ks ss rest →
    Uses ks rest (lowerAll ss)
  | _, _, _, .indented h => ((h.uses.cons rfl).cons rfl).cons rfl
  | _, _, _, .inline h => h.uses.cons rfl

theorem Body.uses : ∀ {ks : List Kind} {ss : List Sentence} {rest : List Kind}, Body ks ss rest →
    Uses ks rest (lowerAll ss)
  | _, _, _, .done _ => Uses.refl.cons rfl
  | _, _, _, .more h hs => by
    rw [lowerAll_append]
    exact h.uses.trans hs.uses

theorem Written.uses :
    ∀ {ks : List Kind} {ss : List Sentence} {rest : List Kind}, Written ks ss rest →
    Uses ks rest (lowerAll ss)
  | _, _, _, .branch h => by
    rw [lowerAll_singleton]
    exact h.uses.cons rfl
  | _, _, _, .whileLoop h hbody => by
    rw [lowerAll_singleton, lower]
    exact ((hbody.uses.prepend h.unaugmented).cons rfl).within (List.Subset.refl _)
  | _, _, _, .forLoop h hbody => by
    rw [lowerAll_singleton, lower]
    exact ((((hbody.uses.prepend h.unaugmented).cons rfl).cons rfl).cons rfl).within
      (List.Subset.refl _)
  | _, _, _, .line h => h.uses

theorem Branch.uses : ∀ {ks : List Kind} {s : Sentence} {rest : List Kind}, Branch ks s rest →
    Uses ks rest s.lower
  | _, _, _, .only h hbody => by
    rw [lower]
    exact (hbody.uses.prepend h.unaugmented).within (List.subset_append_left _ _)
  | _, _, _, .elseIf h hbody hrest => by
    rw [lower, lowerElse, lowerAll_singleton]
    refine ((hbody.uses.trans (hrest.uses.cons rfl)).prepend h.unaugmented).within ?_
    rw [allStmts_append]
    exact List.Subset.refl _
  | _, _, _, .otherwise h hbody hrest => by
    rw [lower, lowerElse]
    refine ((hbody.uses.trans (hrest.uses.cons rfl)).prepend h.unaugmented).within ?_
    rw [allStmts_append]
    exact List.Subset.refl _

end

theorem Params.uses : ∀ {ks : List Kind} {xs : List String} {rest : List Kind}, Params ks xs rest →
    ∀ ss, Uses ks rest ss
  | _, _, _, .none _, _ => Uses.refl.cons rfl
  | _, _, _, .last _ _, _ => (Uses.refl.cons rfl).cons rfl
  | _, _, _, .more h, ss => ((h.uses ss).cons rfl).cons rfl

/-- A text is used up, unless a token ends it before. -/
theorem Text.uses {ks : List Kind} {ss : List Sentence} (h : Text ks ss) :
    ∃ rest, Uses ks rest (lowerAll ss) ∧ (rest = [] ∨ ∃ rest', rest = .eof :: rest') := by
  induction h with
  | done => exact ⟨[], .refl, .inl rfl⟩
  | eof rest => exact ⟨.eof :: rest, .refl, .inr ⟨rest, rfl⟩⟩
  | blank _ ih =>
    obtain ⟨rest, huses, hrest⟩ := ih
    exact ⟨rest, huses.cons rfl, hrest⟩
  | function hparams hbody _ ih =>
    obtain ⟨rest, huses, hrest⟩ := ih
    rw [lowerAll, lower]
    refine ⟨rest, .trans (.within ?_ (List.Subset.refl _)) huses, hrest⟩
    exact ((((hparams.uses []).trans hbody.uses).cons rfl).cons rfl).cons rfl
  | free h _ ih =>
    obtain ⟨rest, huses, hrest⟩ := ih
    rw [lowerAll_append]
    exact ⟨rest, h.uses.trans huses, hrest⟩

end Sentence

/-- Every operator of an augmented assignment that is parsed is rewritten. -/
theorem allRewritten_of_parse {ts : List Token} {p : Program} (h : parse ts = .ok p) :
    AllRewritten (kinds (beforeEnd ts)) p := by
  obtain ⟨ss, m, htext, hapart⟩ :=
    Sentence.text_of_readProgram 0 (beforeEnd ts) (beforeEnd ts) List.suffix_rfl h
  obtain ⟨rest, ⟨used, hused, hrewritten⟩, hrest⟩ := htext.uses
  obtain rfl : rest = [] := by
    obtain rfl | ⟨rest', rfl⟩ := hrest
    · rfl
    · have hmem : Kind.eof ∈ kinds (beforeEnd ts) := by simp [hused]
      obtain ⟨t, ht, hkind⟩ := List.mem_map.1 hmem
      exact absurd hkind (kind_ne_of_mem_beforeEnd ht)
  have hstmts : p = Sentence.lowerAll ss := hapart.stmts
  rw [hused, List.append_nil, hstmts]
  exact hrewritten

end Braces
