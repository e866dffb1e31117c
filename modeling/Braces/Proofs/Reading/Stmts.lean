import Braces.Compile
import Braces.Proofs.Reading.Exprs
import Braces.Proofs.Syntax.Statements

/-!
# Programs that are read from text

All expressions of a program that was read from text, at any depth, are as the readers of
expressions build them, with literals and names that have written forms. That includes the variables
that a tuple assignment goes through and the conversions to text, which are added while the program
is read.
-/

namespace Braces

mutual

/-- All expressions of a statement, with those within them. -/
def Stmt.parts : Stmt → List Expr
  | .assign _ value => value.parts
  | .assignAt target position value => target.parts ++ (position.parts ++ value.parts)
  | .print args => Expr.partsOf args
  | .ifElse cond body orelse => cond.parts ++ (blockParts body ++ elseParts orelse)
  | .whileLoop cond body => cond.parts ++ blockParts body
  | .forLoop _ iterable body => iterable.parts ++ blockParts body
  | .funcDef _ _ body => blockParts body
  | .ret value => Expr.partsOfOption value
  | .eval e => e.parts
  | .pass | .break_ | .continue_ => []

def blockParts : List Stmt → List Expr
  | [] => []
  | s :: rest => s.parts ++ blockParts rest

def elseParts : Option (List Stmt) → List Expr
  | none => []
  | some body => blockParts body

end

/-- All expressions of a program, with those within them. -/
def Program.parts (p : Program) : List Expr := blockParts p

mutual

theorem Stmt.parts_trans : ∀ {s : Stmt} {e e' : Expr}, e ∈ s.parts → e' ∈ e.parts → e' ∈ s.parts
  | .assign _ _, _, _, h, h' | .eval _, _, _, h, h' => Expr.parts_trans h h'
  | .assignAt _ _ _, _, _, h, h' => by
    refine List.mem_append.mpr ((List.mem_append.mp h).imp (Expr.parts_trans · h') fun h => ?_)
    exact List.mem_append.mpr
      ((List.mem_append.mp h).imp (Expr.parts_trans · h') (Expr.parts_trans · h'))
  | .print _, _, _, h, h' => Expr.partsOf_trans h h'
  | .ifElse _ _ _, _, _, h, h' => by
    refine List.mem_append.mpr ((List.mem_append.mp h).imp (Expr.parts_trans · h') fun h => ?_)
    exact List.mem_append.mpr
      ((List.mem_append.mp h).imp (blockParts_trans · h') (elseParts_trans · h'))
  | .whileLoop _ _, _, _, h, h' | .forLoop _ _ _, _, _, h, h' =>
    List.mem_append.mpr ((List.mem_append.mp h).imp (Expr.parts_trans · h') (blockParts_trans · h'))
  | .funcDef _ _ _, _, _, h, h' => blockParts_trans h h'
  | .ret _, _, _, h, h' => Expr.partsOfOption_trans h h'

theorem blockParts_trans : ∀ {ss : List Stmt} {e e' : Expr}, e ∈ blockParts ss → e' ∈ e.parts →
    e' ∈ blockParts ss
  | _ :: _, _, _, h, h' =>
    List.mem_append.mpr ((List.mem_append.mp h).imp (Stmt.parts_trans · h') (blockParts_trans · h'))

theorem elseParts_trans : ∀ {o : Option (List Stmt)} {e e' : Expr}, e ∈ elseParts o →
    e' ∈ e.parts → e' ∈ elseParts o
  | some _, _, _, h, h' => blockParts_trans h h'

end

/-- The expressions of some statements are as they are read. -/
def BlockProper (ss : List Stmt) : Prop := ∀ e ∈ blockParts ss, e.isProper = true

section
variable {s : Stmt} {ss ss' : List Stmt} {e cond value target position : Expr} {name : String}

@[simp] theorem blockProper_nil : BlockProper [] := List.forall_mem_nil _

theorem blockParts_append : blockParts (ss ++ ss') = blockParts ss ++ blockParts ss' := by
  induction ss with
  | nil => rfl
  | cons s ss ih => simp [blockParts, ih]

@[simp] theorem blockProper_append :
    BlockProper (ss ++ ss') ↔ BlockProper ss ∧ BlockProper ss' := by
  rw [BlockProper, blockParts_append, List.forall_mem_append]
  exact Iff.rfl

theorem blockProper_cons : BlockProper (s :: ss) ↔ BlockProper [s] ∧ BlockProper ss :=
  @blockProper_append [s] ss

theorem blockProper_singleton : BlockProper [s] ↔ ∀ e ∈ s.parts, e.isProper = true := by
  rw [BlockProper, blockParts, blockParts, List.append_nil]

@[simp] theorem blockProper_assign : BlockProper [.assign name value] ↔ value.Proper :=
  blockProper_singleton

@[simp] theorem blockProper_assignAt : BlockProper [.assignAt target position value] ↔
    target.Proper ∧ position.Proper ∧ value.Proper :=
  blockProper_singleton.trans
    (List.forall_mem_append.trans (and_congr_right' List.forall_mem_append))

@[simp] theorem blockProper_print {args : List Expr} :
    BlockProper [.print args] ↔ Expr.AllProper args :=
  blockProper_singleton

@[simp] theorem blockProper_ifElse {body : List Stmt} {orelse : Option (List Stmt)} :
    BlockProper [.ifElse cond body orelse] ↔
      cond.Proper ∧ BlockProper body ∧ ∀ ss ∈ orelse, BlockProper ss := by
  have horelse : (∀ e ∈ elseParts orelse, e.isProper = true) ↔
      ∀ ss ∈ orelse, BlockProper ss := by
    cases orelse <;> simp [elseParts, BlockProper]
  rw [← horelse]
  exact blockProper_singleton.trans
    (List.forall_mem_append.trans (and_congr_right' List.forall_mem_append))

@[simp] theorem blockProper_whileLoop {body : List Stmt} :
    BlockProper [.whileLoop cond body] ↔ cond.Proper ∧ BlockProper body :=
  blockProper_singleton.trans List.forall_mem_append

@[simp] theorem blockProper_forLoop {iterable : Expr} {body : List Stmt} :
    BlockProper [.forLoop name iterable body] ↔ iterable.Proper ∧ BlockProper body :=
  blockProper_singleton.trans List.forall_mem_append

@[simp] theorem blockProper_funcDef {params : List String} {body : List Stmt} :
    BlockProper [.funcDef name params body] ↔ BlockProper body :=
  blockProper_singleton

@[simp] theorem blockProper_ret {value : Option Expr} :
    BlockProper [.ret value] ↔ ∀ e ∈ value, e.Proper :=
  blockProper_singleton.trans Expr.forall_mem_partsOfOption

@[simp] theorem blockProper_eval : BlockProper [.eval e] ↔ e.Proper := blockProper_singleton

end

/-! ## Assignments -/

theorem blockProper_storeTo? {target value : Expr} {s : Stmt} (ht : target.Proper)
    (hv : value.Proper) (h : storeTo? target value = some s) : BlockProper [s] := by
  unfold storeTo? at h
  split at h
  · cases h
    simpa using hv
  · cases h
    simp only [Expr.proper_index] at ht
    exact blockProper_assignAt.mpr ⟨ht.1, ht.2, hv⟩
  · cases h

theorem isName_tempName (n : Nat) : Cpp.isName (tempName n) = true := by
  have htext : (tempName n).toList = 'p' :: ("y2cpp_tmp_".toList ++ Nat.toDigits 10 n) := by
    simp [tempName, Nat.toString_eq_repr, Nat.repr_eq_ofList_toDigits]
  have hfirst : Text.startsWord 'p' = true := by decide +kernel
  have hword : "y2cpp_tmp_".toList.all Text.continuesWord = true := by decide +kernel
  have hdigits : (Nat.toDigits 10 n).all Text.continuesWord = true :=
    List.all_eq_true.mpr fun c hc => Cpp.continuesWord_of_isDigit (Cpp.isDigit_of_mem_toDigits hc)
  simp only [Cpp.isName, htext, List.all_append, hfirst, hword, hdigits, Bool.and_self]

theorem isName_of_mem_freshTemps {taken : List String} {count next : Nat} {x : String}
    (h : x ∈ (freshTemps taken count next).1) : Cpp.isName x = true := by
  induction count generalizing next with
  | zero => cases h
  | succ count ih =>
    obtain rfl | h := List.mem_cons.mp h
    · exact isName_tempName _
    · exact ih h

theorem blockProper_iff {ss : List Stmt} : BlockProper ss ↔ ∀ s ∈ ss, BlockProper [s] := by
  induction ss with
  | nil => simp
  | cons s ss ih => rw [blockProper_cons, ih]; simp

theorem Expr.allProper_iff {es : List Expr} : AllProper es ↔ ∀ e ∈ es, e.Proper := by
  induction es with
  | nil => simp
  | cons e es ih => simp [ih]

theorem exists_of_mem_zipWith {α β γ : Type} {f : α → β → γ} {as : List α} {bs : List β} {c : γ}
    (h : c ∈ List.zipWith f as bs) : ∃ a ∈ as, ∃ b ∈ bs, f a b = c := by
  rw [← List.map_uncurry_zip_eq_zipWith] at h
  obtain ⟨⟨a, b⟩, hab, rfl⟩ := List.mem_map.mp h
  obtain ⟨ha, hb⟩ := List.of_mem_zip hab
  exact ⟨a, ha, b, hb, rfl⟩

theorem some_mem_of_mapM {α : Type} {os : List (Option α)} {as : List α} {a : α}
    (h : os.mapM id = some as) (ha : a ∈ as) : some a ∈ os := by
  induction os generalizing as with
  | nil =>
    cases h
    cases ha
  | cons o os ih =>
    simp only [List.mapM_cons, id, Option.bind_eq_bind, Option.bind_eq_some_iff] at h
    obtain ⟨b, rfl, bs, hbs, h⟩ := h
    cases h
    obtain rfl | ha := List.mem_cons.mp ha
    · exact List.mem_cons_self
    · exact List.mem_cons_of_mem _ (ih hbs ha)

/-- What a tuple assignment is taken apart into: values go to fresh variables, and from there to the
targets. -/
theorem mem_tupleAssign {taken : List String} {next : Nat} {targets values : List Expr}
    {r : Numbered (List Stmt)} (h : tupleAssign taken next targets values = .ok r) :
    ∀ s ∈ r.1, (∃ x, Cpp.isName x = true ∧ ∃ v ∈ values, s = .assign x v) ∨
      ∃ t ∈ targets, ∃ x, Cpp.isName x = true ∧ storeTo? t (.var x) = some s := by
  unfold tupleAssign at h
  split at h
  · cases h
  dsimp only at h
  split at h
  · cases h
  · next stores hstores =>
    cases h
    intro s hs
    obtain hs | hs := List.mem_append.mp hs
    · obtain ⟨x, hx, v, hv, rfl⟩ := exists_of_mem_zipWith hs
      exact .inl ⟨x, isName_of_mem_freshTemps hx, v, hv, rfl⟩
    · obtain ⟨t, ht, x, hx, hstore⟩ := exists_of_mem_zipWith (some_mem_of_mapM hstores hs)
      exact .inr ⟨t, ht, x, isName_of_mem_freshTemps hx, hstore⟩

theorem blockProper_tupleAssign {taken : List String} {next : Nat} {targets values : List Expr}
    {r : Numbered (List Stmt)} (ht : Expr.AllProper targets) (hv : Expr.AllProper values)
    (h : tupleAssign taken next targets values = .ok r) : BlockProper r.1 := by
  rw [Expr.allProper_iff] at ht hv
  rw [blockProper_iff]
  intro s hs
  obtain ⟨x, -, v, hmem, rfl⟩ | ⟨t, hmem, x, hx, hstore⟩ := mem_tupleAssign h s hs
  · exact blockProper_assign.mpr (hv v hmem)
  · exact blockProper_storeTo? (ht t hmem) (Expr.proper_var.mpr hx) hstore

/-! ## Statements that are read -/

theorem Expr.SpelledIn.proper {ks : List Kind} {e : Expr} (h : e.SpelledIn ks)
    (hks : ∀ k ∈ ks, k.isWritten = true) : e.Proper := by
  obtain ⟨used, hused, hinside⟩ := h
  exact hused.proper fun k hk => hks k (hinside.subset hk)

theorem allProper_of_spelledIn {ks : List Kind} {es : List Expr} (h : ∀ e ∈ es, e.SpelledIn ks)
    (hks : ∀ k ∈ ks, k.isWritten = true) : Expr.AllProper es :=
  Expr.allProper_iff.mpr fun e he => (h e he).proper hks

theorem Formed.blockProper {taken : List String} {ks : List Kind} {f : Bool} {n m : Nat}
    {ss : List Stmt} (h : Formed taken ks f n ss m) (hks : ∀ k ∈ ks, k.isWritten = true) :
    BlockProper ss := by
  induction h with
  | none => exact blockProper_nil
  | append _ _ ih ih' => exact blockProper_append.mpr ⟨ih, ih'⟩
  | store ht hv hs => exact blockProper_storeTo? (ht.proper hks) (hv.proper hks) hs
  | update ht hv hs =>
    exact blockProper_storeTo? (ht.proper hks) ((ht.proper hks).combine (hv.proper hks)) hs
  | unpack ht hv hr =>
    exact blockProper_tupleAssign (allProper_of_spelledIn ht hks) (allProper_of_spelledIn hv hks) hr
  | eval he => exact blockProper_eval.mpr (he.proper hks)
  | print hargs => exact blockProper_print.mpr (allProper_of_spelledIn hargs hks)
  | ret hvalue => exact blockProper_ret.mpr fun e he => (hvalue e he).proper hks
  | pass | break_ | continue_ => simp [BlockProper, blockParts, Stmt.parts]
  | ifOnly hcond _ _ ih => exact blockProper_ifElse.mpr ⟨hcond.proper hks, ih, nofun⟩
  | ifElse hcond _ _ _ _ ih ih' =>
    refine blockProper_ifElse.mpr ⟨hcond.proper hks, ih, ?_⟩
    rintro _ ⟨⟩
    exact ih'
  | whileLoop hcond _ _ ih => exact blockProper_whileLoop.mpr ⟨hcond.proper hks, ih⟩
  | forLoop _ hiterable _ _ ih => exact blockProper_forLoop.mpr ⟨hiterable.proper hks, ih⟩

theorem FormedProgram.blockProper {taken : List String} {ks : List Kind} {n : Nat} {p : Program}
    (h : FormedProgram taken ks n p) (hks : ∀ k ∈ ks, k.isWritten = true) : BlockProper p := by
  induction h with
  | done => exact blockProper_nil
  | function _ _ hbody _ ih =>
    exact blockProper_cons.mpr ⟨blockProper_funcDef.mpr (hbody.blockProper hks), ih⟩
  | free hss _ ih => exact blockProper_append.mpr ⟨hss.blockProper hks, ih⟩

/-! ## Programs that are read -/

/-- A program that is read is formed from the tokens of its text. -/
theorem formedProgram_readSource {source : String} {p : Program} (h : readSource source = .ok p) :
    ∃ ts, scan source = .ok ts ∧ FormedProgram (identifiers ts) (kinds (beforeEnd ts)) 0 p := by
  unfold readSource at h
  obtain ⟨ts, hts, h⟩ := exists_of_bind_eq_ok h
  exact ⟨ts, eq_ok_of_mapError hts, formedProgram_parse (eq_ok_of_mapError h)⟩

/-- All expressions of a program that is read from text are as the readers build them. -/
theorem isProper_of_readSource {source : String} {p : Program} {e : Expr}
    (h : readSource source = .ok p) (he : e ∈ p.parts) : e.isProper = true := by
  obtain ⟨ts, hts, hp⟩ := formedProgram_readSource h
  refine hp.blockProper ?_ e he
  intro k hk
  obtain ⟨t, ht, rfl⟩ := List.mem_map.mp hk
  exact isWritten_of_scan hts t ((List.takeWhile_sublist _).subset ht)

/-- All expressions of a program that was read from text have literals and names with written
forms. -/
theorem isWritten_of_readSource {source : String} {p : Program} {e : Expr}
    (h : readSource source = .ok p) (he : e ∈ p.parts) : e.isWritten = true :=
  Expr.isWritten_of_isProper (isProper_of_readSource h he)

end Braces
