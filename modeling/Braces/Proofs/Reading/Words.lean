import Braces.Proofs.Inference.Walks
import Braces.Proofs.Syntax.Bodies
import Braces.Proofs.WellShaped

/-!
# The words of a program

Every name that a program binds or defines, at any depth, was an identifier of its text or is one
that a tuple assignment goes through, and every literal and name in its expressions has a written
form. So have the names and the expressions of the routines that are made of the program, the entry
routine among them.
-/

namespace Braces

/-- The names that a statement itself binds or defines. -/
def Stmt.named : Stmt → List String
  | .assign name _ | .forLoop name _ _ => [name]
  | .funcDef name params _ => name :: params
  | _ => []

/-- The names of a statement and the literals and names in its expressions have written forms. -/
structure Stmt.Worded (s : Stmt) : Prop where
  names : ∀ x ∈ s.named, Cpp.isName x = true
  written : ∀ e ∈ s.operands, ∀ e' ∈ e.parts, e'.isWritten = true

/-- The same of all statements of a block, with those in their blocks. -/
def BlockWorded (ss : List Stmt) : Prop := ∀ s ∈ allStmts ss, s.Worded

section
variable {s : Stmt}

theorem Expr.Proper.isWritten {e e' : Expr} (h : e.Proper) (he' : e' ∈ e.parts) :
    e'.isWritten = true :=
  isWritten_of_isProper (h e' he')

theorem blockWorded_of_storeTo? {target value : Expr} (ht : target.Proper) (hv : value.Proper)
    (h : storeTo? target value = some s) : BlockWorded [s] := by
  unfold storeTo? at h
  split at h
  · next name =>
    cases h
    refine forall_allStmts_of_blocks ⟨?_, ?_⟩ (List.forall_mem_nil _)
    · exact List.forall_mem_singleton.mpr (ht.isWritten (Expr.mem_parts_self _))
    · exact List.forall_mem_singleton.mpr fun _ => hv.isWritten
  · next list position =>
    cases h
    rw [Expr.proper_index] at ht
    refine forall_allStmts_of_blocks ⟨List.forall_mem_nil _, ?_⟩ (List.forall_mem_nil _)
    refine List.forall_mem_cons.mpr ⟨fun _ => ht.1.isWritten, List.forall_mem_cons.mpr ⟨?_, ?_⟩⟩
    · exact fun _ => ht.2.isWritten
    · exact List.forall_mem_singleton.mpr fun _ => hv.isWritten
  · cases h

theorem blockWorded_of_tupleAssign {taken : List String} {n : Nat} {targets values : List Expr}
    {r : Numbered (List Stmt)} (ht : ∀ e ∈ targets, e.Proper) (hv : ∀ e ∈ values, e.Proper)
    (h : tupleAssign taken n targets values = .ok r) : BlockWorded r.1 := by
  refine forall_allStmts_iff.mpr ?_
  intro s hs
  obtain ⟨x, hx, v, hmem, rfl⟩ | ⟨t, hmem, x, hx, hstore⟩ := mem_tupleAssign h s hs
  · refine forall_allStmts_of_blocks ⟨List.forall_mem_singleton.mpr hx, ?_⟩ (List.forall_mem_nil _)
    exact List.forall_mem_singleton.mpr fun _ => (hv v hmem).isWritten
  · exact blockWorded_of_storeTo? (ht t hmem) (Expr.proper_var.mpr hx) hstore

end

theorem Formed.blockWorded {taken : List String} {ks : List Kind} {f : Bool} {n m : Nat}
    {ss : List Stmt} (h : Formed taken ks f n ss m) (hks : ∀ k ∈ ks, k.isWritten = true) :
    BlockWorded ss := by
  have hwritten {e : Expr} (he : e.SpelledIn ks) : ∀ e' ∈ e.parts, e'.isWritten = true :=
    fun _ => (he.proper hks).isWritten
  induction h with
  | none => exact List.forall_mem_nil _
  | append _ _ ih ih' => exact forall_allStmts_append.mpr ⟨ih, ih'⟩
  | store ht hv hs => exact blockWorded_of_storeTo? (ht.proper hks) (hv.proper hks) hs
  | update ht hv hs =>
    exact blockWorded_of_storeTo? (ht.proper hks) ((ht.proper hks).combine (hv.proper hks)) hs
  | unpack ht hv hr =>
    exact blockWorded_of_tupleAssign (fun e he => (ht e he).proper hks)
      (fun e he => (hv e he).proper hks) hr
  | eval he =>
    refine forall_allStmts_of_blocks ⟨List.forall_mem_nil _, ?_⟩ (List.forall_mem_nil _)
    exact List.forall_mem_singleton.mpr (hwritten he)
  | print hargs =>
    exact forall_allStmts_of_blocks ⟨List.forall_mem_nil _, fun e he => hwritten (hargs e he)⟩
      (List.forall_mem_nil _)
  | ret hvalue =>
    refine forall_allStmts_of_blocks ⟨List.forall_mem_nil _, fun e he => ?_⟩ (List.forall_mem_nil _)
    exact hwritten (hvalue e (Option.mem_toList.1 he))
  | pass | break_ | continue_ =>
    exact forall_allStmts_of_blocks ⟨List.forall_mem_nil _, List.forall_mem_nil _⟩
      (List.forall_mem_nil _)
  | ifOnly hcond _ _ ih | whileLoop hcond _ _ ih =>
    refine forall_allStmts_of_blocks ⟨List.forall_mem_nil _, ?_⟩ (List.forall_mem_singleton.mpr ih)
    exact List.forall_mem_singleton.mpr (hwritten hcond)
  | ifElse hcond _ _ _ _ ih ih' =>
    refine forall_allStmts_of_blocks ⟨List.forall_mem_nil _, ?_⟩
      (List.forall_mem_cons.mpr ⟨ih, List.forall_mem_singleton.mpr ih'⟩)
    exact List.forall_mem_singleton.mpr (hwritten hcond)
  | forLoop hname hiterable _ _ ih =>
    refine forall_allStmts_of_blocks ⟨?_, ?_⟩ (List.forall_mem_singleton.mpr ih)
    · exact List.forall_mem_singleton.mpr (hks _ hname)
    · exact List.forall_mem_singleton.mpr (hwritten hiterable)

theorem FormedProgram.blockWorded {taken : List String} {ks : List Kind} {n : Nat} {p : Program}
    (h : FormedProgram taken ks n p) (hks : ∀ k ∈ ks, k.isWritten = true) : BlockWorded p := by
  induction h with
  | done => exact List.forall_mem_nil _
  | function hnames _ hbody _ ih =>
    refine (@forall_allStmts_append _ [_] _).mpr ⟨?_, ih⟩
    refine forall_allStmts_of_blocks ⟨fun x hx => hks _ (hnames x hx), List.forall_mem_nil _⟩ ?_
    exact List.forall_mem_singleton.mpr (hbody.blockWorded hks)
  | free hss _ ih => exact forall_allStmts_append.mpr ⟨hss.blockWorded hks, ih⟩

theorem blockWorded_of_readSource {source : String} {p : Program} (h : readSource source = .ok p) :
    BlockWorded p := by
  obtain ⟨ts, hts, hp⟩ := formedProgram_readSource h
  refine hp.blockWorded fun k hk => ?_
  obtain ⟨t, ht, rfl⟩ := List.mem_map.mp hk
  exact isWritten_of_scan hts t ((List.takeWhile_sublist _).subset ht)

/-! ## Routines -/

mutual

theorem Stmt.within_subset : ∀ {s : Stmt}, s.within ⊆ allStmts [s]
  | .ifElse cond body orelse => by
    have hbody := @Stmt.withinBlock_subset body
    have horelse := @Stmt.withinElse_subset orelse
    simp only [within, allStmts, inner, List.append_nil]
    exact List.cons_subset_cons _ (append_subset_append hbody horelse)
  | .whileLoop cond body => by
    simp only [within, allStmts, inner, List.append_nil]
    exact List.cons_subset_cons _ Stmt.withinBlock_subset
  | .forLoop name iterable body => by
    simp only [within, allStmts, inner, List.append_nil]
    exact List.cons_subset_cons _ Stmt.withinBlock_subset
  | .assign _ _ | .assignAt _ _ _ | .print _ | .funcDef _ _ _ | .ret _ | .eval _ | .pass | .break_
  | .continue_ => by
    simp [within, allStmts]

theorem Stmt.withinBlock_subset : ∀ {body : List Stmt}, withinBlock body ⊆ allStmts body
  | [] => List.nil_subset _
  | s :: rest => by
    have hs : s.within ⊆ s :: s.inner := by
      have h := @Stmt.within_subset s
      rwa [allStmts, allStmts, List.append_nil] at h
    exact append_subset_append hs Stmt.withinBlock_subset

theorem Stmt.withinElse_subset :
    ∀ {orelse : Option (List Stmt)}, withinElse orelse ⊆ elseStmts orelse
  | none => List.nil_subset _
  | some _ => Stmt.withinBlock_subset

end

namespace Program

variable {p : Program} {source : String} {main? : Option (List Stmt)} {s' : Stmt}

mutual

/-- What is put together for the entry routine comes from the program and from its entry
function. -/
theorem within_splice : ∀ (spliced : Bool) (ss : List Stmt),
    s' ∈ Stmt.withinBlock (splice main? spliced ss).1 →
      s' ∈ Stmt.withinBlock ss ∨ ∃ body ∈ main?, s' ∈ Stmt.withinBlock body
  | _, [], h => nomatch h
  | spliced, s :: rest, h => by
    rw [splice, Stmt.withinBlock_append] at h
    rw [Stmt.withinBlock, List.mem_append, or_assoc]
    rcases List.mem_append.1 h with h | h
    · exact (within_spliceStmt spliced s h).imp_right .inr
    · exact .inr (within_splice _ rest h)

theorem within_spliceStmt : ∀ (spliced : Bool) (s : Stmt),
    s' ∈ Stmt.withinBlock (spliceStmt main? spliced s).1 →
      s' ∈ s.within ∨ ∃ body ∈ main?, s' ∈ Stmt.withinBlock body
  | _, .funcDef _ _ _, h => nomatch h
  | spliced, .ifElse cond body orelse, h => by
    rw [spliceStmt] at h
    split at h
    · refine (within_splice spliced body h).imp_left fun hbody => ?_
      exact List.mem_cons_of_mem _ (List.mem_append_left _ hbody)
    · exact .inl (Stmt.withinBlock_singleton _ ▸ h)
  | spliced, .eval e, h => by
    unfold spliceStmt at h
    split at h
    · next body =>
      split at h
      · split at h
        · cases h
        · exact .inr ⟨body, rfl, h⟩
      · exact .inl h
    · exact .inl h
  | _, .assign _ _, h | _, .assignAt _ _ _, h | _, .print _, h | _, .whileLoop _ _, h
  | _, .forLoop _ _ _, h | _, .ret _, h | _, .pass, h | _, .break_, h | _, .continue_, h =>
    .inl (Stmt.withinBlock_singleton _ ▸ h)

end

theorem within_entryStatements (h : s' ∈ Stmt.withinBlock p.entryStatements) :
    s' ∈ Stmt.withinBlock p ∨ ∃ fn ∈ p.functions, s' ∈ Stmt.withinBlock fn.body := by
  have hmain : (∃ body ∈ p.entryFunction?.map (·.body), s' ∈ Stmt.withinBlock body) →
      ∃ fn ∈ p.functions, s' ∈ Stmt.withinBlock fn.body := by
    rintro ⟨body, hbody, hs'⟩
    obtain ⟨fn, hfn, rfl⟩ := Option.map_eq_some_iff.1 hbody
    exact ⟨fn, List.mem_of_find?_eq_some hfn, hs'⟩
  unfold entryStatements at h
  dsimp only at h
  split at h
  · exact (within_splice false p h).imp_right hmain
  · rw [Stmt.withinBlock_append] at h
    rcases List.mem_append.1 h with h | h
    · exact (within_splice false p h).imp_right hmain
    · cases hf : p.entryFunction? with
      | none =>
        rw [hf] at h
        cases h
      | some fn =>
        rw [hf] at h
        exact .inr ⟨fn, List.mem_of_find?_eq_some hf, h⟩

theorem exists_funcDef {fn : Function} (h : fn ∈ p.functions) :
    Stmt.funcDef fn.name fn.params fn.body ∈ p := by
  obtain ⟨s, hs, hfn⟩ := List.mem_filterMap.1 h
  cases s with
  | funcDef name params body =>
    cases hfn
    exact hs
  | _ => cases hfn

/-- The statements of all routines have words, and so have the functions themselves. -/
theorem worded_of_readSource (h : readSource source = .ok p) :
    (∀ fn ∈ p.functions, ∀ x ∈ fn.name :: fn.params, Cpp.isName x = true) ∧
      ∀ w ∈ p.walks, ∀ s ∈ Stmt.withinBlock w.2, s.Worded := by
  have hall := blockWorded_of_readSource h
  have hbody : ∀ fn ∈ p.functions, ∀ s ∈ Stmt.withinBlock fn.body, s.Worded := by
    intro fn hfn s hs
    refine hall s (mem_allStmts.2 ⟨_, exists_funcDef hfn, .inr ?_⟩)
    exact Stmt.withinBlock_subset hs
  refine ⟨fun fn hfn => ?_, fun w hw s hs => ?_⟩
  · exact (hall _ (mem_allStmts.2 ⟨_, exists_funcDef hfn, .inl rfl⟩)).names
  · rcases List.mem_append.1 hw with hw | hw
    · obtain ⟨fn, hfn, rfl⟩ := List.mem_map.1 hw
      exact hbody fn (List.mem_of_mem_filter hfn) s hs
    · obtain rfl := List.mem_singleton.1 hw
      rcases within_entryStatements hs with hs | ⟨fn, hfn, hs⟩
      · exact hall s (Stmt.withinBlock_subset hs)
      · exact hbody fn hfn s hs

end Program

end Braces
