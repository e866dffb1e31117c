import Braces.Proofs.Printing.Exprs
import Braces.Proofs.Printing.Layout
import Braces.Proofs.Syntax.Completeness
import Braces.Stmt.Read

/-!
# Reading what is written

The readers of statements, blocks and functions take what is written for one off the front of a
token list. Whatever follows is left alone, unless an `elif` or `else` follows, which would still
belong to a condition.
-/

namespace Braces

open Piece

/-! ## Where a statement starts -/

/-- Tokens that a simple statement can start with. -/
def Kind.startsSimple : Kind → Bool
  | .keyword .return_ | .keyword .print | .keyword .pass | .keyword .break_
  | .keyword .continue_ => true
  | k => k.starts 1

/-- Tokens that a statement other than a function definition can start with. -/
def Kind.startsStmt : Kind → Bool
  | .keyword .if_ | .keyword .while_ | .keyword .for_ => true
  | k => k.startsSimple

theorem Kind.startsSimple_of_starts {k : Kind} (h : k.starts 1 = true) : k.startsSimple = true := by
  unfold startsSimple
  split <;> first | rfl | exact h

theorem Kind.startsStmt_of_startsSimple {k : Kind} (h : k.startsSimple = true) :
    k.startsStmt = true := by
  unfold startsStmt
  split <;> first | rfl | exact h

theorem ne_of_startsStmt {k k' : Kind} (h : k.startsStmt = true) (h' : k'.startsStmt = false) :
    k ≠ k' := by
  rintro rfl
  rw [h] at h'
  cases h'

/-- No branch of a condition follows. -/
def Elseless (ts : List Token) : Prop :=
  ∀ t ∈ ts.head?, t.kind ≠ .keyword .elif ∧ t.kind ≠ .keyword .else_

theorem elseless_cons {t : Token} {ts : List Token}
    (h : t.kind.startsStmt = true ∨ t.kind = .dedent) :
    Elseless (t :: ts) := by
  rintro _ ⟨⟩
  obtain h | h := h
  · exact ⟨ne_of_startsStmt h rfl, ne_of_startsStmt h rfl⟩
  · rw [h]
    exact ⟨nofun, nofun⟩

namespace Stmt

def isSimple : Stmt → Bool
  | .ifElse _ _ _ | .whileLoop _ _ | .forLoop _ _ _ | .funcDef _ _ _ => false
  | _ => true

theorem tokenKinds_of_isSimple (style : Style) (k : Keyword) {s : Stmt} (h : s.isSimple = true) :
    s.tokenKinds style k = lexemes (s.head style k) ++ [.newline] := by
  cases s <;> first | rfl | cases h

end Stmt

section

variable {src : Source} {style : Style} {inFunction : Bool} {next : Nat} {used rest : List Token}
  {ks ks' : List Kind} {t : Token} {e : Expr}

/-! ## Simple statements -/

theorem reads_expr {stop : Token} (h : Phrase 1 ks e) (hused : kinds used = ks)
    (ht : t.kind.continues = false) : ReadsAs (readExpr stop (used ++ t :: rest)) e (t :: rest) :=
  h.follows.reads_readExpr hused (.of_kind ht)

theorem reads_readAssignment_store {target value : Expr} {s : Stmt} (htarget : Phrase 1 ks target)
    (hvalue : Phrase 1 ks' value) (hs : storeTo? target value = some s)
    (hused : kinds used = ks ++ .symbol .equal :: ks') (ht : t.kind = .newline) :
    ReadsAs (readAssignment src next (used ++ t :: rest)) ([s], next) (t :: rest) := by
  obtain ⟨us, more, rfl, rfl, hmore⟩ := List.map_eq_append_iff.mp hused
  obtain ⟨equal, us', rfl, hequal, rfl⟩ := List.map_eq_cons_iff.mp hmore
  have hfirst : ReadsAs (readExpr src.stop (us ++ equal :: (us' ++ t :: rest))) target
      (equal :: (us' ++ t :: rest)) := reads_expr htarget rfl (by rw [hequal]; rfl)
  have hfollow : Follow.of (equal :: (us' ++ t :: rest)) = .value := by
    simp [Follow.of, hequal]
  have hsecond : ReadsAs (readExpr src.stop (us' ++ t :: rest)) value (t :: rest) :=
    reads_expr hvalue rfl (by rw [ht]; rfl)
  rw [List.append_assoc, List.cons_append]
  unfold readAssignment
  refine hfirst.bind fun _ => ?_
  dsimp only
  split
  case h_2 =>
    refine hsecond.bind fun _ => ?_
    dsimp only
    split
    · next s' hs' =>
      cases hs.symm.trans hs'
      exact .ok
    · next hs' => cases hs.symm.trans hs'
  all_goals
    next heq => cases hfollow.symm.trans heq

theorem reads_readAssignment_eval (he : Phrase 1 ks e) (hused : kinds used = ks)
    (ht : t.kind = .newline) :
    ReadsAs (readAssignment src next (used ++ t :: rest)) ([.eval e], next) (t :: rest) := by
  have hfollow : Follow.of (t :: rest) = .nothing := by
    simp [Follow.of, ht, augmented?]
  unfold readAssignment
  refine (reads_expr he hused (by rw [ht]; rfl)).bind fun _ => ?_
  dsimp only
  split
  case h_4 => exact .ok
  all_goals
    next heq => cases hfollow.symm.trans heq

theorem readSimple_eq_readAssignment {k : Kind} (hk : k.starts 1 = true)
    (hused : kinds used = k :: ks) :
    readSimple src inFunction next (used ++ rest) = readAssignment src next (used ++ rest) := by
  obtain ⟨t, us, rfl, rfl, rfl⟩ := List.map_eq_cons_iff.mp hused
  generalize heq : t :: us ++ rest = ts
  unfold readSimple
  split
  case h_6 => rfl
  all_goals
    cases heq
    cases hk

theorem endsSimple_eq_false {k : Kind} (hk : k.starts 1 = true) (hused : kinds used = k :: ks) :
    endsSimple (used ++ rest) = false := by
  obtain ⟨t, us, rfl, rfl, rfl⟩ := List.map_eq_cons_iff.mp hused
  have hne : t.kind ≠ .newline ∧ t.kind ≠ .symbol .semicolon ∧ t.kind ≠ .dedent ∧
      t.kind ≠ .eof := by
    refine ⟨?_, ?_, ?_, ?_⟩
    all_goals
      intro h
      rw [h] at hk
      cases hk
  simp [endsSimple, hne]

theorem reads_readSimple : ∀ {s : Stmt}, s.isSimple = true → s.isSource false inFunction = true →
    kinds used = lexemes (s.head style .if_) → t.kind = .newline →
    ReadsAs (readSimple src inFunction next (used ++ t :: rest)) ([s], next) (t :: rest)
  | .assign name value, _, h, hused, ht => by
    simp only [Stmt.isSource, Bool.and_eq_true] at h
    have hvalue := (Expr.spelled style h.2).whole
    rw [readSimple_eq_readAssignment rfl hused]
    exact reads_readAssignment_store
      (.looser (.var name) (by decide) (by decide)) hvalue rfl hused ht
  | .assignAt target position value, _, h, hused, ht => by
    simp only [Stmt.isSource, Bool.and_eq_true] at h
    have htarget := (Expr.spelled_index (Expr.spelled style h.1.1) (Expr.spelled style h.1.2)).whole
    have hvalue := (Expr.spelled style h.2).whole
    rw [Stmt.head, lexemes_append] at hused
    obtain ⟨k, ks', heq, hk⟩ := htarget.starts
    rw [readSimple_eq_readAssignment hk (by rw [hused, heq, List.cons_append])]
    exact reads_readAssignment_store htarget hvalue rfl hused ht
  | .print args, _, h, hused, ht => by
    have hargs := Expr.phrases_items style h
    have hkinds : kinds used = .keyword .print :: .symbol .openParen ::
        (lexemes (Expr.items style args) ++ [.symbol .closeParen]) :=
      hused.trans (congrArg (Kind.keyword .print :: ·) (lexemes_between .openParen .closeParen _))
    obtain ⟨⟨_, pos⟩, us, rfl, rfl, hus⟩ := List.map_eq_cons_iff.mp hkinds
    obtain ⟨paren, us', rfl, hparen, hus'⟩ := List.map_eq_cons_iff.mp hus
    obtain ⟨items, closing, rfl, hitems, hclosing⟩ := List.map_eq_append_iff.mp hus'
    obtain ⟨close, rfl, hclose⟩ := List.map_eq_singleton_iff.mp hclosing
    rw [List.cons_append, List.cons_append, List.append_assoc, List.singleton_append, readSimple]
    refine (reads_expect hparen).bind fun _ => ?_
    refine (hargs.follows (.inl rfl) hitems hclose).bind fun _ => ?_
    exact .ok
  | .ret none, _, h, hused, ht => by
    simp only [Stmt.isSource, Bool.and_eq_true] at h
    obtain ⟨⟨_, pos⟩, us, rfl, rfl, hus⟩ := List.map_eq_cons_iff.mp hused
    obtain rfl := List.map_eq_nil_iff.mp hus
    have hends : endsSimple (t :: rest) = true := by simp [endsSimple, ht]
    rw [List.singleton_append, readSimple, h.1, if_neg (by decide), if_pos hends]
    exact .ok
  | .ret (some e), _, h, hused, ht => by
    simp only [Stmt.isSource, Bool.and_eq_true] at h
    have he := (Expr.spelled style h.2).whole
    obtain ⟨⟨_, pos⟩, us, rfl, rfl, hus⟩ := List.map_eq_cons_iff.mp hused
    obtain ⟨k, ks', heq, hk⟩ := he.starts
    rw [List.cons_append, readSimple, h.1, if_neg (by decide), if_neg]
    · refine (reads_expr he hus (by rw [ht]; rfl)).bind fun _ => ?_
      exact .ok
    · rw [endsSimple_eq_false hk (hus.trans heq)]
      exact Bool.false_ne_true
  | .eval e, _, h, hused, ht => by
    have he := (Expr.spelled style h).whole
    obtain ⟨k, ks', heq, hk⟩ := he.starts
    rw [readSimple_eq_readAssignment hk (hused.trans heq)]
    exact reads_readAssignment_eval he hused ht
  | .pass, _, _, hused, ht | .break_, _, _, hused, ht | .continue_, _, _, hused, ht => by
    obtain ⟨⟨_, pos⟩, us, rfl, rfl, hus⟩ := List.map_eq_cons_iff.mp hused
    obtain rfl := List.map_eq_nil_iff.mp hus
    rw [List.singleton_append, readSimple]
    exact .ok

theorem reads_readAfterSemicolons (ht : t.kind = .newline) :
    ReadsAs (readAfterSemicolons src inFunction next (t :: rest)) ([], next) (t :: rest) := by
  obtain ⟨_, pos⟩ := t
  obtain rfl := ht
  rw [readAfterSemicolons]
  · exact .ok
  · rintro _ _ ⟨⟩

theorem reads_readLine {ts : List Token} {s : Stmt}
    (h : ReadsAs (readSimple src inFunction next ts) ([s], next) (t :: rest))
    (ht : t.kind = .newline) :
    ReadsAs (readLine src inFunction next ts) ([s], next) rest := by
  unfold readLine
  refine h.bind fun _ => ?_
  refine (reads_readAfterSemicolons ht).bind fun _ => ?_
  obtain ⟨_, pos⟩ := t
  obtain rfl := ht
  exact .ok

/-! ## Blocks -/

/-- The readers take the tokens of a statement. -/
structure Stmt.Followed (src : Source) (style : Style) (inFunction : Bool) (s : Stmt) : Prop where
  starts : ∃ k ks, s.tokenKinds style .if_ = k :: ks ∧ k.startsStmt = true
  reads : ∀ ⦃next used rest⦄, kinds used = s.tokenKinds style .if_ → Elseless rest →
    ReadsAs (readStmt src inFunction next (used ++ rest)) ([s], next) rest
  /-- After its keyword. -/
  condition : s.isCondition = true → ∀ ⦃k t next used rest⦄,
    kinds (t :: used) = s.tokenKinds style k → Elseless rest →
    ReadsAs (readIf src inFunction next (used ++ rest)) (s, next) rest

/-- What follows a statement in a block is another one or the end of the block. -/
theorem elseless_block {ss : List Stmt} (h : ∀ s ∈ ss, s.Followed src style inFunction)
    (hused : kinds used = Stmt.tokenKindsOf style .if_ ss ++ [.dedent]) :
    Elseless (used ++ rest) := by
  cases ss with
  | nil =>
    obtain ⟨t, rfl, ht⟩ := List.map_eq_singleton_iff.mp hused
    exact elseless_cons (.inr ht)
  | cons s ss =>
    obtain ⟨k, ks, heq, hk⟩ := (h s List.mem_cons_self).starts
    rw [Stmt.tokenKindsOf, heq] at hused
    obtain ⟨t, us, rfl, rfl, -⟩ := List.map_eq_cons_iff.mp hused
    exact elseless_cons (.inl hk)

theorem reads_readBody {ss : List Stmt} (h : ∀ s ∈ ss, s.Followed src style inFunction)
    (hused : kinds used = Stmt.tokenKindsOf style .if_ ss ++ [.dedent]) :
    ReadsAs (readBody src inFunction next (used ++ rest)) (ss, next) rest := by
  induction ss generalizing used with
  | nil =>
    obtain ⟨t, rfl, ht⟩ := List.map_eq_singleton_iff.mp hused
    rw [List.singleton_append, readBody, if_pos ht]
    exact .ok
  | cons s ss ih =>
    obtain ⟨hs, hss⟩ := List.forall_mem_cons.mp h
    rw [Stmt.tokenKindsOf, List.append_assoc] at hused
    obtain ⟨us, us', rfl, hus, hus'⟩ := List.map_eq_append_iff.mp hused
    have hread : ReadsAs (readStmt src inFunction next (us ++ (us' ++ rest))) ([s], next)
        (us' ++ rest) :=
      hs.reads hus (elseless_block hss hus')
    obtain ⟨k, ks, heq, hk⟩ := hs.starts
    obtain ⟨t, us, rfl, rfl, -⟩ := List.map_eq_cons_iff.mp (hus.trans heq)
    rw [List.append_assoc, List.cons_append, readBody, if_neg (ne_of_startsStmt hk rfl),
      if_neg (ne_of_startsStmt hk rfl)]
    refine hread.bind fun _ => ?_
    refine (ih hss hus').bind fun _ => ?_
    exact .ok

theorem reads_readBlock {ss : List Stmt} (h : ∀ s ∈ ss, s.Followed src style inFunction)
    (hused : kinds used = .symbol .colon :: blockKinds (Stmt.tokenKindsOf style .if_ ss)) :
    ReadsAs (readBlock src inFunction next (used ++ rest)) (ss, next) rest := by
  obtain ⟨colon, us, rfl, hcolon, hus⟩ := List.map_eq_cons_iff.mp hused
  obtain ⟨⟨_, pos⟩, us', rfl, rfl, hus'⟩ := List.map_eq_cons_iff.mp hus
  obtain ⟨indent, body, rfl, hindent, hbody⟩ := List.map_eq_cons_iff.mp hus'
  rw [List.cons_append, List.cons_append, List.cons_append, readBlock]
  refine (reads_expect hcolon).bind fun _ => ?_
  refine (reads_expect hindent).bind fun _ => ?_
  refine (reads_readBody h hbody).bind fun _ => ?_
  exact .ok

/-! ## Statements -/

theorem readStmt_eq_readLine {k : Kind} (hk : k.startsSimple = true)
    (hused : kinds used = k :: ks) :
    readStmt src inFunction next (used ++ rest) = readLine src inFunction next (used ++ rest) := by
  obtain ⟨t, us, rfl, rfl, rfl⟩ := List.map_eq_cons_iff.mp hused
  generalize heq : t :: us ++ rest = ts
  unfold readStmt
  split
  case h_5 => rfl
  all_goals
    cases heq
    cases hk

namespace Stmt

theorem followed_simple {s : Stmt} (hsimple : s.isSimple = true)
    (h : s.isSource false inFunction = true)
    (hstarts : ∃ k ks, lexemes (s.head style .if_) = k :: ks ∧ k.startsSimple = true) :
    s.Followed src style inFunction := by
  obtain ⟨k, ks, heq, hk⟩ := hstarts
  have hkinds : s.tokenKinds style .if_ = k :: (ks ++ [.newline]) := by
    rw [tokenKinds_of_isSimple style .if_ hsimple, heq, List.cons_append]
  refine ⟨⟨k, _, hkinds, k.startsStmt_of_startsSimple hk⟩, ?_, ?_⟩
  · intro next used rest hused _
    rw [readStmt_eq_readLine hk (hused.trans hkinds)]
    rw [tokenKinds_of_isSimple style .if_ hsimple] at hused
    obtain ⟨us, ending, rfl, hus, hending⟩ := List.map_eq_append_iff.mp hused
    obtain ⟨t, rfl, ht⟩ := List.map_eq_singleton_iff.mp hending
    rw [List.append_assoc, List.singleton_append]
    exact reads_readLine (reads_readSimple hsimple h hus ht) ht
  · cases s <;> first | (cases hsimple; done) | exact nofun

theorem tokenKinds_ifElse (k : Keyword) (cond : Expr) (body : List Stmt)
    (orelse : Option (List Stmt)) : (Stmt.ifElse cond body orelse).tokenKinds style k =
      .keyword k :: (lexemes (cond.pieces style) ++
        (.symbol .colon :: blockKinds (tokenKindsOf style .if_ body) ++
          elseKinds style orelse)) := by
  rw [tokenKinds, head, lexemes_cons, lexemes_cons, lexemes_append, List.append_assoc,
    List.append_assoc, List.append_assoc]
  rfl

/-- What follows the block of a condition. -/
theorem branch_cases {orelse : Option (List Stmt)} {branch : List Token}
    (h : kinds branch = elseKinds style orelse) :
    (orelse = none ∧ branch = []) ∨
    (∃ s pos us, orelse = some [s] ∧ s.isCondition = true ∧ branch = ⟨.keyword .elif, pos⟩ :: us ∧
      kinds branch = s.tokenKinds style .elif) ∨
    (∃ body pos us, orelse = some body ∧ branch = ⟨.keyword .else_, pos⟩ :: us ∧
      kinds us = .symbol .colon :: blockKinds (tokenKindsOf style .if_ body)) := by
  cases orelse with
  | none => exact .inl ⟨rfl, List.map_eq_nil_iff.mp h⟩
  | some body =>
    rw [elseKinds] at h
    split at h
    · next hchained =>
      unfold isChained at hchained
      split at hchained
      · next s =>
        rw [Bool.and_eq_true] at hchained
        rw [tokenKindsOf, tokenKindsOf, List.append_nil] at h
        cases s <;> first | (cases hchained.1; done) | skip
        next cond body orelse =>
        have hkinds := h.trans (tokenKinds_ifElse .elif cond body orelse)
        obtain ⟨⟨_, pos⟩, us, rfl, rfl, -⟩ := List.map_eq_cons_iff.mp hkinds
        exact .inr (.inl ⟨_, pos, us, rfl, rfl, rfl, h⟩)
      · cases hchained
    · obtain ⟨⟨_, pos⟩, us, rfl, rfl, hus⟩ := List.map_eq_cons_iff.mp h
      exact .inr (.inr ⟨body, pos, us, rfl, rfl, hus⟩)

theorem followed_ifElse {cond : Expr} {body : List Stmt} {orelse : Option (List Stmt)}
    (hcond : cond.isSource = true) (hbody : ∀ s ∈ body, s.Followed src style inFunction)
    (horelse : ∀ ss ∈ orelse, ∀ s ∈ ss, s.Followed src style inFunction) :
    (Stmt.ifElse cond body orelse).Followed src style inFunction := by
  have hcondition : ∀ ⦃k t next used rest⦄,
      kinds (t :: used) = (Stmt.ifElse cond body orelse).tokenKinds style k → Elseless rest →
      ReadsAs (readIf src inFunction next (used ++ rest))
        (.ifElse cond body orelse, next) rest := by
    intro k t next used rest hused hrest
    rw [tokenKinds_ifElse] at hused
    obtain ⟨-, hused⟩ := List.cons.inj hused
    obtain ⟨us, more, rfl, hus, hmore⟩ := List.map_eq_append_iff.mp hused
    obtain ⟨block, branch, rfl, hblock, hbranch⟩ := List.map_eq_append_iff.mp hmore
    have hread : ∀ rest',
        ReadsAs (readBlock src inFunction next (block ++ rest')) (body, next) rest' :=
      fun _ => reads_readBlock hbody hblock
    obtain ⟨colon, block, rfl, hcolon, hblock⟩ := List.map_eq_cons_iff.mp hblock
    rw [List.append_assoc, List.append_assoc, List.cons_append, readIf]
    refine (reads_expr (Expr.spelled style hcond).whole hus (by rw [hcolon]; rfl)).bind fun _ => ?_
    refine (hread (branch ++ rest)).bind fun _ => ?_
    obtain ⟨rfl, rfl⟩ | ⟨s, pos, us', rfl, hs, rfl, hs'⟩ | ⟨body', pos, us', rfl, rfl, hus'⟩ :=
      branch_cases hbranch
    · dsimp only
      split
      · next pos more _ heq _ =>
        obtain rfl : rest = _ := heq
        exact absurd rfl (hrest ⟨.keyword .elif, pos⟩ rfl).1
      · next pos more _ heq _ =>
        obtain rfl : rest = _ := heq
        exact absurd rfl (hrest ⟨.keyword .else_, pos⟩ rfl).2
      · exact .ok
    · refine ((horelse _ rfl s List.mem_cons_self).condition hs hs' hrest).bind fun _ => ?_
      exact .ok
    · refine (reads_readBlock (horelse _ rfl) hus').bind fun _ => ?_
      exact .ok
  refine ⟨?_, ?_, fun _ => hcondition⟩
  · exact ⟨_, _, tokenKinds_ifElse .if_ cond body orelse, rfl⟩
  · intro next used rest hused hrest
    obtain ⟨⟨_, pos⟩, us, rfl, rfl, -⟩ :=
      List.map_eq_cons_iff.mp (hused.trans (tokenKinds_ifElse .if_ cond body orelse))
    rw [List.cons_append, readStmt]
    refine (hcondition hused hrest).bind fun _ => ?_
    exact .ok

theorem tokenKinds_whileLoop (k : Keyword) (cond : Expr) (body : List Stmt) :
    (Stmt.whileLoop cond body).tokenKinds style k =
      .keyword .while_ :: (lexemes (cond.pieces style) ++
      .symbol .colon :: blockKinds (tokenKindsOf style .if_ body)) := by
  rw [tokenKinds, head, lexemes_cons, lexemes_cons, lexemes_append, List.append_assoc,
    List.append_assoc, List.append_assoc]
  rfl

theorem followed_whileLoop {cond : Expr} {body : List Stmt} (hcond : cond.isSource = true)
    (hbody : ∀ s ∈ body, s.Followed src style inFunction) :
    (Stmt.whileLoop cond body).Followed src style inFunction := by
  refine ⟨⟨_, _, tokenKinds_whileLoop .if_ cond body, rfl⟩, ?_, nofun⟩
  intro next used rest hused _
  rw [tokenKinds_whileLoop] at hused
  obtain ⟨⟨_, pos⟩, more, rfl, rfl, hmore⟩ := List.map_eq_cons_iff.mp hused
  obtain ⟨us, block, rfl, hus, hblock⟩ := List.map_eq_append_iff.mp hmore
  have hread : ReadsAs (readBlock src inFunction next (block ++ rest)) (body, next) rest :=
    reads_readBlock hbody hblock
  obtain ⟨colon, block, rfl, hcolon, -⟩ := List.map_eq_cons_iff.mp hblock
  rw [List.cons_append, List.append_assoc, List.cons_append, readStmt]
  refine (reads_expr (Expr.spelled style hcond).whole hus (by rw [hcolon]; rfl)).bind fun _ => ?_
  refine hread.bind fun _ => ?_
  exact .ok

theorem tokenKinds_forLoop (k : Keyword) (name : String) (iterable : Expr) (body : List Stmt) :
    (Stmt.forLoop name iterable body).tokenKinds style k =
      .keyword .for_ :: .ident name :: .keyword .in_ :: (lexemes (iterable.pieces style) ++
        .symbol .colon :: blockKinds (tokenKindsOf style .if_ body)) := by
  rw [tokenKinds, head, lexemes_cons, lexemes_cons, lexemes_cons, lexemes_cons, lexemes_cons,
    lexemes_cons, lexemes_append]
  simp only [List.append_assoc]
  rfl

theorem followed_forLoop {name : String} {iterable : Expr} {body : List Stmt}
    (hiterable : iterable.isSource = true) (hbody : ∀ s ∈ body, s.Followed src style inFunction) :
    (Stmt.forLoop name iterable body).Followed src style inFunction := by
  refine ⟨⟨_, _, tokenKinds_forLoop .if_ name iterable body, rfl⟩, ?_, nofun⟩
  intro next used rest hused _
  rw [tokenKinds_forLoop] at hused
  obtain ⟨⟨_, pos⟩, named, rfl, rfl, hnamed⟩ := List.map_eq_cons_iff.mp hused
  obtain ⟨⟨_, pos'⟩, range, rfl, rfl, hrange⟩ := List.map_eq_cons_iff.mp hnamed
  obtain ⟨within, more, rfl, hwithin, hmore⟩ := List.map_eq_cons_iff.mp hrange
  obtain ⟨us, block, rfl, hus, hblock⟩ := List.map_eq_append_iff.mp hmore
  have hread : ReadsAs (readBlock src inFunction next (block ++ rest)) (body, next) rest :=
    reads_readBlock hbody hblock
  obtain ⟨colon, block, rfl, hcolon, -⟩ := List.map_eq_cons_iff.mp hblock
  rw [List.cons_append, List.cons_append, List.cons_append, List.append_assoc, List.cons_append,
    readStmt]
  refine ReadsAs.ok.bind fun _ => ?_
  refine (reads_expect hwithin).bind fun _ => ?_
  refine (reads_expr (Expr.spelled style hiterable).whole hus
    (by rw [hcolon]; rfl)).bind fun _ => ?_
  refine hread.bind fun _ => ?_
  exact .ok

mutual

theorem followed : ∀ {s : Stmt} {inFunction : Bool}, s.isSource false inFunction = true →
    s.Followed src style inFunction
  | .assign _ _, _, h => followed_simple rfl h ⟨_, _, rfl, rfl⟩
  | .assignAt target position value, _, h => by
    refine followed_simple rfl h ?_
    simp only [isSource, Bool.and_eq_true] at h
    obtain ⟨k, ks, heq, hk⟩ :=
      (Expr.spelled_index (Expr.spelled style h.1.1) (Expr.spelled style h.1.2)).whole.starts
    rw [head, lexemes_append, heq]
    exact ⟨k, _, rfl, k.startsSimple_of_starts hk⟩
  | .print _, _, h => followed_simple rfl h ⟨_, _, rfl, rfl⟩
  | .ifElse _ _ _, _, h => by
    simp only [isSource, Bool.and_eq_true] at h
    exact followed_ifElse h.1.1.1 (followed_all h.1.2) (followed_else h.2)
  | .whileLoop _ _, _, h => by
    simp only [isSource, Bool.and_eq_true] at h
    exact followed_whileLoop h.1.1 (followed_all h.2)
  | .forLoop _ _ _, _, h => by
    simp only [isSource, Bool.and_eq_true] at h
    exact followed_forLoop h.1.1.2 (followed_all h.2)
  | .ret none, _, h | .ret (some _), _, h => followed_simple rfl h ⟨_, _, rfl, rfl⟩
  | .eval _, _, h => by
    obtain ⟨k, ks, heq, hk⟩ := (Expr.spelled style h).whole.starts
    exact followed_simple rfl h ⟨k, ks, heq, k.startsSimple_of_starts hk⟩
  | .pass, _, h | .break_, _, h | .continue_, _, h => followed_simple rfl h ⟨_, _, rfl, rfl⟩

theorem followed_all : ∀ {ss : List Stmt} {inFunction : Bool},
    allSource false inFunction ss = true → ∀ s ∈ ss, s.Followed src style inFunction
  | [], _, _ => nofun
  | _ :: _, _, h => by
    simp only [allSource, Bool.and_eq_true] at h
    exact List.forall_mem_cons.mpr ⟨followed h.1, followed_all h.2⟩

theorem followed_else : ∀ {o : Option (List Stmt)} {inFunction : Bool},
    elseSource inFunction o = true → ∀ ss ∈ o, ∀ s ∈ ss, s.Followed src style inFunction
  | none, _, _ => nofun
  | some body, _, h => by
    simp only [elseSource, Bool.and_eq_true] at h
    rintro _ ⟨⟩
    exact followed_all h.2

end

end Stmt

/-! ## Functions and programs -/

theorem reads_readParams {stop : Token} {names : List String}
    (hused : kinds used = lexemes (namePieces names)) (ht : t.kind = .symbol .closeParen) :
    ReadsAs (readParams stop (used ++ t :: rest)) names rest := by
  obtain ⟨_, close⟩ := t
  obtain rfl := ht
  induction names generalizing used with
  | nil =>
    obtain rfl := List.map_eq_nil_iff.mp hused
    rw [List.nil_append, readParams]
    exact .ok
  | cons name names ih =>
    obtain ⟨⟨_, pos⟩, us, rfl, rfl, hus⟩ := List.map_eq_cons_iff.mp hused
    rw [List.cons_append, readParams]
    · refine ReadsAs.ok.bind fun _ => ?_
      cases names with
      | nil =>
        obtain rfl := List.map_eq_nil_iff.mp hus
        refine (reads_expect rfl).bind fun _ => ?_
        exact .ok
      | cons name' names =>
        obtain ⟨⟨_, comma⟩, more, rfl, rfl, hmore⟩ := List.map_eq_cons_iff.mp hus
        refine (ih hmore).bind fun _ => ?_
        exact .ok
    · rintro _ _ ⟨⟩

theorem tokenKinds_funcDef (k : Keyword) (name : String) (params : List String)
    (body : List Stmt) : (Stmt.funcDef name params body).tokenKinds style k =
      .keyword .def_ :: .ident name :: .symbol .openParen :: (lexemes (namePieces params) ++
        .symbol .closeParen :: .symbol .colon ::
          blockKinds (Stmt.tokenKindsOf style .if_ body)) := by
  rw [Stmt.tokenKinds, Stmt.head, lexemes_cons, lexemes_cons, lexemes_cons, lexemes_append,
    lexemes_between]
  simp only [List.append_assoc, List.cons_append]
  rfl

theorem reads_readFunction {name : String} {params : List String} {body : List Stmt}
    (hbody : ∀ s ∈ body, s.Followed src style true)
    (hused : kinds used = (Stmt.funcDef name params body).tokenKinds style .if_) :
    ReadsAs (readFunction src next (used ++ rest)) (.funcDef name params body, next) rest := by
  rw [tokenKinds_funcDef] at hused
  obtain ⟨start, named, rfl, hstart, hnamed⟩ := List.map_eq_cons_iff.mp hused
  obtain ⟨⟨_, pos⟩, called, rfl, rfl, hcalled⟩ := List.map_eq_cons_iff.mp hnamed
  obtain ⟨paren, more, rfl, hparen, hmore⟩ := List.map_eq_cons_iff.mp hcalled
  obtain ⟨us, closing, rfl, hus, hclosing⟩ := List.map_eq_append_iff.mp hmore
  obtain ⟨close, block, rfl, hclose, hblock⟩ := List.map_eq_cons_iff.mp hclosing
  rw [List.cons_append, List.cons_append, List.cons_append, List.append_assoc, List.cons_append,
    readFunction]
  refine (reads_expect hstart).bind fun _ => ?_
  refine ReadsAs.ok.bind fun _ => ?_
  refine (reads_expect hparen).bind fun _ => ?_
  refine (reads_readParams hus hclose).bind fun _ => ?_
  refine (reads_readBlock hbody hblock).bind fun _ => ?_
  exact .ok

/-- A statement of the top level is a function definition, or could stand in a block. -/
theorem Stmt.isSource_top {s : Stmt} (h : s.isSource true inFunction = true) :
    (∃ name params body, s = .funcDef name params body ∧ allSource false true body = true) ∨
      s.isSource false inFunction = true := by
  cases s
  case funcDef name params body =>
    simp only [isSource, Bool.and_eq_true] at h
    exact .inl ⟨name, params, body, rfl, h.2⟩
  all_goals exact .inr h

theorem elseless_program (src : Source) {p : List Stmt} (h : Stmt.allSource true false p = true)
    (hused : kinds used = Stmt.tokenKindsOf style .if_ p) : Elseless used := by
  cases p with
  | nil =>
    obtain rfl := List.map_eq_nil_iff.mp hused
    exact nofun
  | cons s p =>
    simp only [Stmt.allSource, Bool.and_eq_true] at h
    rw [Stmt.tokenKindsOf] at hused
    obtain ⟨name, params, body, rfl, -⟩ | hs := Stmt.isSource_top h.1
    · rw [tokenKinds_funcDef] at hused
      obtain ⟨t, us, rfl, ht, -⟩ := List.map_eq_cons_iff.mp hused
      rintro _ ⟨⟩
      rw [ht]
      exact ⟨nofun, nofun⟩
    · have hfollowed : s.Followed src style false := Stmt.followed hs
      obtain ⟨k, ks, heq, hk⟩ := hfollowed.starts
      rw [heq] at hused
      obtain ⟨t, us, rfl, rfl, -⟩ := List.map_eq_cons_iff.mp hused
      exact elseless_cons (.inl hk)

theorem readProgram_tokenKinds {p : List Stmt} (h : Stmt.allSource true false p = true)
    (hused : kinds used = Stmt.tokenKindsOf style .if_ p) : readProgram src next used = .ok p := by
  induction p generalizing used with
  | nil =>
    obtain rfl := List.map_eq_nil_iff.mp hused
    rw [readProgram]
  | cons s p ih =>
    simp only [Stmt.allSource, Bool.and_eq_true] at h
    rw [Stmt.tokenKindsOf] at hused
    obtain ⟨us, us', rfl, hus, hus'⟩ := List.map_eq_append_iff.mp hused
    have hrest := ih h.2 hus'
    obtain ⟨name, params, body, rfl, hbody⟩ | hs := Stmt.isSource_top h.1
    · have hread : ReadsAs (readFunction src next (us ++ us'))
          (.funcDef name params body, next) us' :=
        reads_readFunction (Stmt.followed_all hbody) hus
      rw [tokenKinds_funcDef] at hus
      obtain ⟨t, us, rfl, ht, -⟩ := List.map_eq_cons_iff.mp hus
      rw [List.cons_append] at hread ⊢
      obtain ⟨hlt, hread⟩ := hread
      rw [readProgram, if_neg (by rw [ht]; rintro ⟨⟩), if_neg (by rw [ht]; rintro ⟨⟩), if_pos ht,
        hread]
      simp only [bind, Except.bind, hrest]
      rfl
    · have hfollowed : s.Followed src style false := Stmt.followed hs
      have hread : ReadsAs (readStmt src false next (us ++ us')) ([s], next) us' :=
        hfollowed.reads hus (elseless_program src h.2 hus')
      obtain ⟨k, ks, heq, hk⟩ := hfollowed.starts
      obtain ⟨t, us, rfl, rfl, -⟩ := List.map_eq_cons_iff.mp (hus.trans heq)
      rw [List.cons_append] at hread ⊢
      obtain ⟨hlt, hread⟩ := hread
      rw [readProgram, if_neg (ne_of_startsStmt hk rfl), if_neg (ne_of_startsStmt hk rfl),
        if_neg (ne_of_startsStmt hk rfl), hread]
      simp only [bind, Except.bind, hrest]
      rfl

end

end Braces
