import Mathlib.Data.List.TakeWhile
import Braces.Proofs.Syntax.Predictive
import Braces.Proofs.Unpacking.Reading

/-!
# What a failure to parse depends on

The parser looks one token ahead. So a failure depends on the tokens that were used up and on the
next one only, although the names of fresh variables depend on all tokens.
-/

namespace Braces
namespace Reader

variable {before ts : List Token}

/-! ## Simple statements -/

/-- A reader of statements. What they are depends on names anywhere in the input. -/
def numbered {γ : Type} {bound : List Token → Nat}
    (read : Source → Nat → (ts : List Token) →
      Except ParseError (Reading (Numbered γ) (bound ts))) :
    Reader γ :=
  fun src n ts => (read src n ts).map fun r => (r.value.1, r.value.2, r.rest)

theorem shorter_of_numbered {γ : Type} {bound : List Token → Nat}
    {read : Source → Nat → (ts : List Token) → Except ParseError (Reading (Numbered γ) (bound ts))}
    {src : Source} {n m : Nat} {value : γ} {rest : List Token}
    (h : numbered read src n ts = .ok (value, m, rest)) : rest.length < bound ts :=
  @shorter_of_map _ _ _ _ _ (fun r : Reading (Numbered γ) (bound ts) => r.value) _ _ h

def more (ends : List Token → Bool) : Reader (List Expr) := plain fun stop => readMore stop ends

def assignment : Reader (List Stmt) := numbered readAssignment

def simple (f : Bool) : Reader (List Stmt) := numbered fun src => readSimple src f

def semicolons (f : Bool) : Reader (List Stmt) := numbered fun src => readAfterSemicolons src f

def lineEnd : Reader Unit := plain readLineEnd

def line (f : Bool) : Reader (List Stmt) := numbered fun src => readLine src f

/-- A question that the next token answers. The end of the input is as good as no token. -/
structure OfNext (ends : List Token → Bool) : Prop where
  head : ∀ ts, ends ts = ends ts.head?.toList
  eof : ∀ pos, ends [⟨.eof, pos⟩] = ends []

theorem ofNext_endsSimple : OfNext endsSimple := by
  refine ⟨fun ts => ?_, fun _ => rfl⟩
  cases ts <;> rfl

theorem ofNext_startsWith {kind : Kind} (hkind : kind ≠ .eof) : OfNext (startsWith kind) := by
  refine ⟨fun ts => ?_, fun _ => decide_eq_false (Ne.symm hkind)⟩
  cases ts <;> rfl

/-- Chooses by a question that the next token answers. -/
def ifEnds {α : Type} (ends : List Token → Bool) (p q : Reader α) : Reader α :=
  branch fun t => if ends t.toList then p else q

theorem ifEnds_eq {α : Type} {ends : List Token → Bool} {p q : Reader α} (h : OfNext ends)
    (src : Source)
    (n : Nat) (ts : List Token) :
    ifEnds ends p q src n ts = if ends ts then p src n ts else q src n ts := by
  rw [ifEnds, branch, ← h.head]
  split <;> rfl

theorem made_ifEnds {α : Type} {ends : List Token → Bool} {p q : Reader α}
    (h : OfNext ends) {basis : Basis} (hp : Made basis before p ts) (hq : Made basis before q ts) :
    Made basis before (ifEnds ends p q) ts := by
  refine .branch (fun pos later src n => ?_) ?_
  · exact congrArg (fun b : Bool => (if b then p else q) src n (⟨.eof, pos⟩ :: later)) (h.eof pos)
  · split
    · exact hp
    · exact hq

theorem more_eq {ends : List Token → Bool} (h : OfNext ends) : more ends =
    ifNext (.symbol .comma) (ifEnds ends (pure []) ((level .disjunction).bind fun e =>
      (more ends).bind fun es => pure (e :: es))) (pure []) := by
  funext src n ts
  change (readMore src.stop ends ts).map _ = _
  unfold readMore
  split
  · rw [ifNext_cons, ifEnds_eq h]
    split
    · rfl
    · exact map_bind fun _ => map_bind fun _ => rfl
  · next hne =>
    rw [ifNext_of_ne hne]
    rfl

theorem made_more {ends : List Token → Bool} (h : OfNext ends) (before ts : List Token) :
    Made .used before (more ends) ts := by
  rw [more_eq h]
  refine made_ifNext (Kind.symbol_ne_eof _) (fun rest hts => made_ifEnds h .pure ?_) .pure
  refine (made_level _ .disjunction rest).bind fun he _ _ => ?_
  have hlt := shorter_of_plain he
  exact (made_more h _ _).bind fun _ _ _ => .pure
termination_by ts.length
decreasing_by
  subst_vars
  simp only [List.length_cons]
  omega

theorem isSome_storeTo? (target value value' : Expr) :
    (storeTo? target value).isSome = (storeTo? target value').isSome := by
  cases target <;> rfl

theorem isSome_mapM_id {γ : Type} (os : List (Option γ)) :
    (os.mapM id).isSome = os.all (·.isSome) := by
  induction os with
  | nil => rfl
  | cons o os ih =>
    rw [List.mapM_cons, List.all_cons, ← ih]
    cases o with
    | none => rfl
    | some a => cases os.mapM id <;> rfl

/-- Whether all targets can be stored to does not depend on the variables in between. -/
theorem isSome_stores : ∀ (targets : List Expr) {temps temps' : List String},
    temps.length = temps'.length →
    ((List.zipWith (fun t x => storeTo? t (.var x)) targets temps).mapM id).isSome =
      ((List.zipWith (fun t x => storeTo? t (.var x)) targets temps').mapM id).isSome
  | [], _, _, _ => rfl
  | _ :: _, [], [], _ => rfl
  | t :: targets, x :: temps, x' :: temps', h => by
    have ih := isSome_stores targets (Nat.succ.inj h)
    rw [isSome_mapM_id, isSome_mapM_id] at ih ⊢
    rw [List.zipWith_cons_cons, List.zipWith_cons_cons, List.all_cons, List.all_cons, ih,
      isSome_storeTo? t (.var x) (.var x')]

theorem tupleAssign_fault (taken taken' : List String) (next next' : Nat)
    (targets values : List Expr) :
    (tupleAssign taken' next' targets values).map (fun _ => ()) =
      (tupleAssign taken next targets values).map fun _ => () := by
  have hsome := isSome_stores targets ((Fresh.freshTemps taken' values.length next').2.trans
    (Fresh.freshTemps taken values.length next).2.symm)
  unfold tupleAssign
  split
  · rfl
  · dsimp only
    split
    · next hnone' =>
      split
      · rfl
      · next hstores =>
        rw [hnone', hstores] at hsome
        cases hsome
    · next hstores' =>
      split
      · next hnone =>
        rw [hstores', hnone] at hsome
        cases hsome
      · rfl

theorem isNext_of_tupleAssign {taken : List String} {next : Nat} {targets values : List Expr}
    {fault : ParseFault} (h : tupleAssign taken next targets values = .error fault) :
    fault.isNext = false := by
  unfold tupleAssign at h
  split at h
  · cases h
    rfl
  · dsimp only at h
    split at h
    · cases h
      rfl
    · cases h

/-- A store to a target, or a fault of the statement's first token. -/
def stored (target value : Expr) (start : Token) : Reader (List Stmt) :=
  match storeTo? target value with
  | some s => pure [s]
  | none => blame .invalidTarget start

theorem made_stored {target value : Expr} {start : Token} (h : start ∈ before) :
    Made .names before (stored target value start) ts := by
  unfold stored
  split
  · exact .pure
  · exact .blame h rfl

def unpacked (targets values : List Expr) : Token → Reader (List Stmt) :=
  settle fun taken n => tupleAssign taken n targets values

theorem made_unpacked {targets values : List Expr} {start : Token} (h : start ∈ before) :
    Made .names before (unpacked targets values start) ts := by
  refine .settle h isNext_of_tupleAssign fun taken n taken' n' => ?_
  exact tupleAssign_fault taken taken' n n' targets values

/-- How a statement goes on after its first expression. -/
def afterFirst (first : Expr) (start : Token) : Follow → Reader (List Stmt)
  | .moreTargets => (more (startsWith (.symbol .equal))).bind fun targets =>
      (token (.symbol .equal)).bind fun _ => (level .disjunction).bind fun value =>
        (more endsSimple).bind fun values => unpacked (first :: targets) (value :: values) start
  | .value => skip ((level .disjunction).bind fun value => stored first value start)
  | .operand op => skip ((level .disjunction).bind fun value =>
      stored first (.combine op first value) start)
  | .nothing => pure [.eval first]

theorem follow_head (ts : List Token) : Follow.of ts = Follow.of ts.head?.toList := by
  cases ts <;> rfl

theorem assignment_eq : assignment = branch fun
    | none => (level .disjunction).bind fun first => pure [.eval first]
    | some start => (level .disjunction).bind fun first =>
        branch fun t => afterFirst first start (Follow.of t.toList) := by
  funext src n ts
  change (readAssignment src n ts).map _ = _
  unfold readAssignment
  cases ts with
  | nil =>
    change _ = Except.map _ (readExpr src.stop []) >>= _
    rw [readExpr_atEnd _ (.inl rfl)]
    rfl
  | cons start rest =>
    refine map_bind fun r => ?_
    obtain ⟨first, r, h⟩ := r
    change _ = afterFirst first start (Follow.of r.head?.toList) src n r
    rw [← follow_head]
    dsimp only
    cases Follow.of r with
    | moreTargets =>
      refine map_bind fun targets => map_bind fun _ => map_bind fun value =>
        map_bind fun values => ?_
      dsimp only [unpacked, settle]
      cases tupleAssign src.taken n (first :: targets.value) (value.value :: values.value) with
      | ok r => rfl
      | error fault => rfl
    | value =>
      refine map_bind fun value => ?_
      dsimp only [stored]
      cases storeTo? first value.value with
      | none => rfl
      | some s => rfl
    | operand op =>
      refine map_bind fun value => ?_
      dsimp only [stored]
      cases storeTo? first (.combine op first value.value) with
      | none => rfl
      | some s => rfl
    | nothing => rfl

/-- Nothing follows a first expression at the end of the input. -/
theorem ne_eof_of_follow {t : Token} {rest : List Token} {next : Follow}
    (h : Follow.of (t :: rest) = next) (hnext : next ≠ .nothing) : t.kind ≠ .eof := by
  intro hkind
  refine hnext (h.symm.trans ?_)
  obtain ⟨k, pos⟩ := t
  subst hkind
  rfl

theorem made_afterFirst {first : Expr} {start : Token} (h : start ∈ before) :
    Made .names before (afterFirst first start (Follow.of ts.head?.toList)) ts := by
  cases ts with
  | nil => exact .pure
  | cons t rest =>
    rw [← follow_head]
    cases hfollow : Follow.of (t :: rest) with
    | moreTargets =>
      rw [afterFirst]
      refine (made_more (ofNext_startsWith (Kind.symbol_ne_eof _)) _ _).bind fun _ _ _ => ?_
      refine (made_token (Kind.symbol_ne_eof _)).bind fun _ _ _ =>
        (made_level _ _ _).bind fun _ _ _ => ?_
      refine (made_more ofNext_endsSimple _ _).bind fun _ _ _ => made_unpacked ?_
      simp [h]
    | value =>
      refine .skip rfl (ne_eof_of_follow hfollow (by simp)) fun _ _ =>
        (made_level _ _ _).bind fun _ _ _ => made_stored ?_
      simp [h]
    | operand op =>
      refine .skip rfl (ne_eof_of_follow hfollow (by simp)) fun _ _ =>
        (made_level _ _ _).bind fun _ _ _ => made_stored ?_
      simp [h]
    | nothing => exact .pure

theorem made_assignment (before ts : List Token) : Made .names before assignment ts := by
  rw [assignment_eq]
  refine .branch (fun pos later src n => ?_) ?_
  · have hnone := level_eof src n pos later
    dsimp only [bind]
    rw [hnone]
    rfl
  split
  · exact (made_level _ _ _).bind fun _ _ _ => .pure
  · next start hstart =>
    refine (made_level _ _ _).bind fun hfirst used hused =>
      .branch (fun _ _ _ _ => rfl) (made_afterFirst ?_)
    -- The first expression has used up the first token.
    have hlt := shorter_of_plain hfirst
    cases used with
    | nil => exact absurd hlt (by rw [hused]; exact Nat.lt_irrefl _)
    | cons t used =>
      rw [hused] at hstart
      cases hstart
      simp

/-- What follows `return`, within a function or not. -/
def returned (pos : Pos) : Bool → Reader (List Stmt)
  | false => blame .returnOutsideFunction ⟨.keyword .return_, pos⟩
  | true =>
    ifEnds endsSimple (pure [.ret none]) ((level .disjunction).bind fun e => pure [.ret (some e)])

theorem simple_eq (f : Bool) : simple f = branch fun
    | some ⟨.keyword .return_, pos⟩ => skip (returned pos f)
    | some ⟨.keyword .print, _⟩ => skip <|
        (token (.symbol .openParen)).bind fun _ => (items .closeParen).bind fun args =>
          pure [.print args]
    | some ⟨.keyword .pass, _⟩ => skip (pure [.pass])
    | some ⟨.keyword .break_, _⟩ => skip (pure [.break_])
    | some ⟨.keyword .continue_, _⟩ => skip (pure [.continue_])
    | _ => assignment := by
  funext src n ts
  change (readSimple src f n ts).map _ = _
  rw [branch]
  unfold readSimple
  split
  · next pos rest =>
    change _ = returned pos f src n rest
    cases f with
    | false => rfl
    | true =>
      rw [returned, ifEnds_eq ofNext_endsSimple, if_neg (by decide)]
      split
      · rfl
      · exact map_bind fun _ => rfl
  · exact map_bind fun _ => map_bind fun _ => rfl
  · rfl
  · rfl
  · rfl
  · next hreturn hprint hpass hbreak hcontinue =>
    rcases ts with _ | ⟨⟨k, pos⟩, rest⟩
    · rfl
    cases k with
    | keyword w =>
      cases w with
      | return_ => exact absurd rfl (hreturn pos rest)
      | print => exact absurd rfl (hprint pos rest)
      | pass => exact absurd rfl (hpass pos rest)
      | break_ => exact absurd rfl (hbreak pos rest)
      | continue_ => exact absurd rfl (hcontinue pos rest)
      | _ => rfl
    | _ => rfl

theorem made_simple (before : List Token) (f : Bool) (ts : List Token) :
    Made .names before (simple f) ts := by
  rw [simple_eq]
  refine .branch (fun _ _ _ _ => rfl) ?_
  split
  · next pos hhead =>
    refine .skip hhead (by simp) fun _ _ => ?_
    cases f with
    | false => exact .blame (by simp) rfl
    | true =>
      exact made_ifEnds ofNext_endsSimple .pure ((made_level _ _ _).bind fun _ _ _ => .pure)
  · next hhead =>
    refine .skip hhead (by simp) fun _ _ => (made_token (Kind.symbol_ne_eof _)).bind fun _ _ _ => ?_
    exact (made_items _ _ _).bind fun _ _ _ => .pure
  · next hhead => exact .skip hhead (by simp) fun _ _ => .pure
  · next hhead => exact .skip hhead (by simp) fun _ _ => .pure
  · next hhead => exact .skip hhead (by simp) fun _ _ => .pure
  · exact made_assignment before ts

theorem semicolons_eq (f : Bool) : semicolons f =
    ifNext (.symbol .semicolon) (ifEnds endsSimple (pure [])
      (both (· ++ ·) (simple f) (semicolons f))) (pure []) := by
  funext src n ts
  change (readAfterSemicolons src f n ts).map _ = _
  unfold readAfterSemicolons
  split
  · rw [ifNext_cons, ifEnds_eq ofNext_endsSimple]
    split
    · rfl
    · exact map_bind fun _ => map_bind fun _ => rfl
  · next hne =>
    rw [ifNext_of_ne hne]
    rfl

theorem made_semicolons (before : List Token) (f : Bool) (ts : List Token) :
    Made .names before (semicolons f) ts := by
  rw [semicolons_eq]
  refine made_ifNext (Kind.symbol_ne_eof _)
    (fun rest hts => made_ifEnds ofNext_endsSimple .pure ?_) .pure
  refine (made_simple _ f rest).both fun hs _ _ => ?_
  have hlt := shorter_of_numbered hs
  exact made_semicolons _ f _
termination_by ts.length
decreasing_by
  subst_vars
  simp only [List.length_cons]
  omega

theorem lineEnd_eq : lineEnd = branch fun
    | some ⟨.newline, _⟩ => skip (pure ())
    | some ⟨.dedent, _⟩ | some ⟨.eof, _⟩ | none => pure ()
    | _ => refuse (.unexpected .endOfLine) := by
  funext src n ts
  change (readLineEnd src.stop ts).map _ = _
  rcases ts with _ | ⟨⟨k, pos⟩, rest⟩
  · rfl
  · cases k <;> rfl

theorem made_lineEnd {basis : Basis} : Made basis before lineEnd ts := by
  rw [lineEnd_eq]
  refine .branch (fun _ _ _ _ => rfl) ?_
  split
  · next hhead => exact .skip hhead (by simp) fun _ _ => .pure
  · exact .pure
  · exact .pure
  · exact .pure
  · exact .refuse

theorem line_eq (f : Bool) : line f =
    both (· ++ ·) (simple f) (both (fun more _ => more) (semicolons f) lineEnd) := by
  funext src n ts
  change (readLine src f n ts).map _ = _
  unfold readLine
  refine map_bind fun _ => ?_
  simp only [both, bind, bind_assoc]
  exact map_bind fun _ => map_bind fun _ => rfl

theorem made_line (before : List Token) (f : Bool) (ts : List Token) :
    Made .names before (line f) ts := by
  rw [line_eq]
  refine (made_simple _ f ts).both fun _ _ _ => (made_semicolons _ f _).both fun _ _ _ => ?_
  exact made_lineEnd

/-! ## Blocks -/

def block (f : Bool) : Reader (List Stmt) := numbered fun src => readBlock src f

def body (f : Bool) : Reader (List Stmt) := numbered fun src => readBody src f

def stmt (f : Bool) : Reader (List Stmt) := numbered fun src => readStmt src f

def ifChain (f : Bool) : Reader Stmt := numbered fun src => readIf src f

theorem block_eq (f : Bool) : block f = (token (.symbol .colon)).bind fun _ =>
    ifNext .newline ((token .indent).bind fun _ => map id (body f)) (map id (line f)) := by
  funext src n ts
  change (readBlock src f n ts).map _ = _
  unfold readBlock
  refine map_bind ?_
  rintro ⟨_, r₁, h⟩
  dsimp only
  split
  · rw [ifNext_cons]
    exact map_bind fun _ => map_bind fun _ => rfl
  · next hne =>
    rw [ifNext_of_ne (by rintro pos r₂ rfl; exact hne pos r₂ h rfl HEq.rfl)]
    exact map_bind fun _ => rfl

theorem body_eq (f : Bool) : body f = branch fun
    | none => refuse (.unexpected (.kind .dedent))
    | some t =>
      if t.kind = .dedent then skip (pure [])
      else if t.kind = .eof then refuse (.unexpected (.kind .dedent))
      else both (· ++ ·) (stmt f) (body f) := by
  funext src n ts
  change (readBody src f n ts).map _ = _
  unfold readBody
  split
  · rfl
  · dsimp only [branch, List.head?_cons]
    split
    · rfl
    · split
      · rfl
      · exact map_bind fun _ => map_bind fun _ => rfl

theorem stmt_eq (f : Bool) : stmt f = branch fun
    | some ⟨.keyword .if_, _⟩ => skip (map (fun s => [s]) (ifChain f))
    | some ⟨.keyword .while_, _⟩ => skip <|
        (level .disjunction).bind fun cond => map (fun body => [.whileLoop cond body]) (block f)
    | some ⟨.keyword .for_, _⟩ => skip <|
        name.bind fun x => (token (.keyword .in_)).bind fun _ =>
          (level .disjunction).bind fun e => map (fun body => [.forLoop x e body]) (block f)
    | some ⟨.keyword .def_, _⟩ => refuse .nestedFunction
    | _ => line f := by
  funext src n ts
  change (readStmt src f n ts).map _ = _
  rw [branch]
  unfold readStmt
  split
  · exact map_bind fun _ => rfl
  · exact map_bind fun _ => map_bind fun _ => rfl
  · exact map_bind fun _ => map_bind fun _ => map_bind fun _ => map_bind fun _ => rfl
  · rfl
  · next hif hwhile hfor hdef =>
    rcases ts with _ | ⟨⟨k, pos⟩, rest⟩
    · rfl
    cases k with
    | keyword w =>
      cases w with
      | if_ => exact absurd rfl (hif pos rest)
      | while_ => exact absurd rfl (hwhile pos rest)
      | for_ => exact absurd rfl (hfor pos rest)
      | def_ => exact absurd rfl (hdef pos rest)
      | _ => rfl
    | _ => rfl

/-- What follows the block of an `if` or `elif`. -/
def orelse (f : Bool) : Reader (Option (List Stmt)) :=
  ifNext (.keyword .elif) (map (fun s => some [s]) (ifChain f))
    (ifNext (.keyword .else_) (map some (block f)) (pure none))

theorem ifChain_eq (f : Bool) : ifChain f = (level .disjunction).bind fun cond =>
    both (fun body orelse => .ifElse cond body orelse) (block f) (orelse f) := by
  funext src n ts
  change (readIf src f n ts).map _ = _
  unfold readIf
  refine map_bind fun _ => map_bind ?_
  rintro ⟨_, r₂, h⟩
  dsimp only [orelse, bind]
  split
  · rw [ifNext_cons]
    simp only [map, both, bind, bind_assoc]
    exact map_bind fun _ => rfl
  · rw [ifNext_of_ne (by rintro _ _ ⟨⟩), ifNext_cons]
    simp only [map, both, bind, bind_assoc]
    exact map_bind fun _ => rfl
  · next helif helse =>
    rw [ifNext_of_ne (by rintro pos r₃ rfl; exact helif pos r₃ h rfl HEq.rfl),
      ifNext_of_ne (by rintro pos r₃ rfl; exact helse pos r₃ h rfl HEq.rfl)]
    rfl

mutual

theorem made_block (before : List Token) (f : Bool) (ts : List Token) :
    Made .names before (block f) ts := by
  rw [block_eq]
  refine (made_token (Kind.symbol_ne_eof _)).bind fun hcolon _ _ => ?_
  have hlt := shorter_of_plain hcolon
  refine made_ifNext (by simp) (fun rest hrest => ?_) ?_
  · refine (made_token (by simp)).bind fun hindent _ _ => ?_
    have hlt' := shorter_of_plain hindent
    exact (made_body _ f _).map
  · exact (made_line _ f _).map
termination_by 4 * ts.length

theorem made_body (before : List Token) (f : Bool) (ts : List Token) :
    Made .names before (body f) ts := by
  rw [body_eq]
  refine .branch (fun _ _ _ _ => rfl) ?_
  split
  · exact .refuse
  · next t hhead =>
    split
    · next hdedent => exact .skip hhead (by simp [hdedent]) fun _ _ => .pure
    split
    · exact .refuse
    · refine (made_stmt _ f ts).both fun hs _ _ => ?_
      have hlt := shorter_of_numbered hs
      exact made_body _ f _
termination_by 4 * ts.length + 2

theorem made_stmt (before : List Token) (f : Bool) (ts : List Token) :
    Made .names before (stmt f) ts := by
  rw [stmt_eq]
  refine .branch (fun _ _ _ _ => rfl) ?_
  split
  · next hhead =>
    exact .skip hhead (by simp) fun rest hts => (made_ifChain _ f rest).map
  · next hhead =>
    refine .skip hhead (by simp) fun rest hts => (made_level _ _ _).bind fun hcond _ _ => ?_
    have hlt := shorter_of_plain hcond
    exact (made_block _ f _).map
  · next hhead =>
    refine .skip hhead (by simp) fun rest hts => made_name.bind fun hname _ _ => ?_
    have hlt := shorter_of_plain hname
    refine (made_token (Kind.keyword_ne_eof _)).bind fun hin _ _ => ?_
    have hlt' := shorter_of_plain hin
    refine (made_level _ _ _).bind fun hiterable _ _ => ?_
    have hlt'' := shorter_of_plain hiterable
    exact (made_block _ f _).map
  · exact .refuse
  · exact made_line before f ts
termination_by 4 * ts.length + 1

theorem made_ifChain (before : List Token) (f : Bool) (ts : List Token) :
    Made .names before (ifChain f) ts := by
  rw [ifChain_eq]
  refine (made_level _ _ _).bind fun hcond _ _ => ?_
  have hlt := shorter_of_plain hcond
  refine (made_block _ f _).both fun hbody _ _ => ?_
  have hlt' := shorter_of_numbered hbody
  refine made_ifNext (Kind.keyword_ne_eof _) (fun rest hrest => ?_)
    (made_ifNext (Kind.keyword_ne_eof _) (fun rest hrest => ?_) .pure)
  · exact (made_ifChain _ f rest).map
  · exact (made_block _ f rest).map
termination_by 4 * ts.length

end

/-! ## Programs -/

def params : Reader (List String) := plain readParams

def function : Reader Stmt := numbered readFunction

theorem params_eq : params = ifNext (.symbol .closeParen) (pure [])
    (name.bind fun x => ifNext (.symbol .comma) (params.bind fun xs => pure (x :: xs))
      ((token (.symbol .closeParen)).bind fun _ => pure [x])) := by
  funext src n ts
  change (readParams src.stop ts).map _ = _
  unfold readParams
  split
  · rw [ifNext_cons]
    rfl
  · next hne =>
    rw [ifNext_of_ne hne]
    refine map_bind ?_
    rintro ⟨x, r₁, h⟩
    dsimp only
    split
    · rw [ifNext_cons]
      exact map_bind fun _ => rfl
    · next hcomma =>
      rw [ifNext_of_ne (by rintro pos r₂ rfl; exact hcomma pos r₂ h rfl HEq.rfl)]
      exact map_bind fun _ => rfl

theorem made_params (before ts : List Token) : Made .used before params ts := by
  rw [params_eq]
  refine made_ifNext (Kind.symbol_ne_eof _) (fun _ _ => .pure) (made_name.bind fun hname _ _ => ?_)
  have hlt := shorter_of_plain hname
  refine made_ifNext (Kind.symbol_ne_eof _) (fun rest hrest => ?_) ?_
  · exact (made_params _ rest).bind fun _ _ _ => .pure
  · exact (made_token (Kind.symbol_ne_eof _)).bind fun _ _ _ => .pure
termination_by ts.length
decreasing_by
  subst_vars
  simp only [List.length_cons] at hlt
  omega

theorem function_eq : function = (token (.keyword .def_)).bind fun _ => name.bind fun x =>
    (token (.symbol .openParen)).bind fun _ => params.bind fun xs =>
      map (fun body => .funcDef x xs body) (block true) := by
  funext src n ts
  change (readFunction src n ts).map _ = _
  unfold readFunction
  exact map_bind fun _ => map_bind fun _ => map_bind fun _ => map_bind fun _ =>
    map_bind fun _ => rfl

theorem made_function : Made .names before function ts := by
  rw [function_eq]
  refine (made_token (Kind.keyword_ne_eof _)).bind fun _ _ _ => made_name.bind fun _ _ _ => ?_
  refine (made_token (Kind.symbol_ne_eof _)).bind fun _ _ _ =>
    (made_params _ _).bind fun _ _ _ => ?_
  exact (made_block _ true _).map

end Reader

/-- Functions and statements up to the end of the input, and what is left there. -/
def readThrough (src : Source) (next : Nat) (ts : List Token) :
    Except ParseError (Program × Nat × List Token) :=
  match ts with
  | [] => .ok ([], next, [])
  | t :: rest =>
    if t.kind = .eof then .ok ([], next, t :: rest)
    else if t.kind = .newline then readThrough src next rest
    else if t.kind = .keyword .def_ then do
      let ⟨(f, next), r₁, shorter⟩ ← readFunction src next (t :: rest)
      have := shorter
      let (p, next, unread) ← readThrough src next r₁
      return (f :: p, next, unread)
    else do
      let ⟨(s, next), r₁, shorter⟩ ← readStmt src false next (t :: rest)
      have := shorter
      let (p, next, unread) ← readThrough src next r₁
      return (s ++ p, next, unread)
termination_by ts.length
decreasing_by
  · exact Nat.lt_succ_self _
  all_goals assumption

/-- A program is read through to the end of the input. -/
theorem readProgram_eq (src : Source) (n : Nat) (ts : List Token) :
    readProgram src n ts = (readThrough src n ts).map (·.1) := by
  cases ts with
  | nil =>
    rw [readProgram, readThrough]
    rfl
  | cons t rest =>
    rw [readProgram, readThrough]
    split
    · rfl
    split
    · exact readProgram_eq src n rest
    split
    · cases readFunction src n (t :: rest) with
      | error e => rfl
      | ok r =>
        have hlt := r.shorter
        change (readProgram src r.value.2 r.rest >>= _) =
          Except.map _ (readThrough src r.value.2 r.rest >>= _)
        rw [readProgram_eq src r.value.2 r.rest]
        cases readThrough src r.value.2 r.rest <;> rfl
    · cases readStmt src false n (t :: rest) with
      | error e => rfl
      | ok r =>
        have hlt := r.shorter
        change (readProgram src r.value.2 r.rest >>= _) =
          Except.map _ (readThrough src r.value.2 r.rest >>= _)
        rw [readProgram_eq src r.value.2 r.rest]
        cases readThrough src r.value.2 r.rest <;> rfl
termination_by ts.length
decreasing_by
  all_goals first | exact hlt | exact Nat.lt_succ_self _

namespace Reader

variable {before ts : List Token}

def program : Reader Program := readThrough

theorem program_eq : program = branch fun
    | none => pure []
    | some t =>
      if t.kind = .eof then pure []
      else if t.kind = .newline then skip program
      else if t.kind = .keyword .def_ then both (· :: ·) function program
      else both (· ++ ·) (stmt false) program := by
  funext src n ts
  change readThrough src n ts = _
  unfold readThrough
  split
  · rfl
  · next t rest =>
    dsimp only [branch, List.head?_cons]
    split
    · rfl
    split
    · rfl
    split
    · change _ = Except.map _ (readFunction src n (t :: rest)) >>= _
      cases readFunction src n (t :: rest) <;> rfl
    · change _ = Except.map _ (readStmt src false n (t :: rest)) >>= _
      cases readStmt src false n (t :: rest) <;> rfl

theorem made_program (before ts : List Token) : Made .names before program ts := by
  rw [program_eq]
  refine .branch (fun _ _ _ _ => rfl) ?_
  split
  · exact .pure
  · next t hhead =>
    split
    · exact .pure
    split
    · next heof hnewline =>
      exact .skip hhead heof fun rest hts => made_program _ rest
    split
    · refine made_function.both fun hf _ _ => ?_
      have hlt := shorter_of_numbered hf
      exact made_program _ _
    · refine (made_stmt _ false _).both fun hs _ _ => ?_
      have hlt := shorter_of_numbered hs
      exact made_program _ _
termination_by ts.length

theorem blames_program (before ts : List Token) : Blames before program ts :=
  .of_forget (made_program before ts).predictive.1.error

end Reader

/-! ## Inputs -/

/-- The tokens with one after them that ends the input, unless the last one does. -/
def completed (ts : List Token) : List Token :=
  if ts.getLast?.map (·.kind) = some .eof then ts
  else ts ++ [⟨.eof, (ts.getLast?.map (·.pos)).getD .start⟩]

/-- Only the first token that ends the input counts. -/
theorem exists_completed (ts : List Token) :
    (endToken ts).kind = .eof ∧ ∃ after, completed ts = beforeEnd ts ++ endToken ts :: after := by
  have hsplit : beforeEnd ts ++ ts.dropWhile (·.kind ≠ .eof) = ts := List.takeWhile_append_dropWhile
  have hfind : ts.find? (·.kind = .eof) = (ts.dropWhile (·.kind ≠ .eof)).head? := by
    simp [List.find?_eq_head?_dropWhile_not]
  unfold endToken
  rw [hfind]
  cases hrest : ts.dropWhile (·.kind ≠ .eof) with
  | nil =>
    rw [hrest, List.append_nil] at hsplit
    refine ⟨rfl, [], ?_⟩
    rw [completed, if_neg, hsplit]
    · rfl
    · intro hlast
      obtain ⟨t, ht, hkind⟩ := Option.map_eq_some_iff.mp hlast
      exact kind_ne_of_mem_beforeEnd (hsplit.symm ▸ List.mem_of_getLast? ht) hkind
  | cons t rest =>
    rw [hrest] at hsplit hfind
    have hkind : t.kind = .eof := by simpa using List.find?_some hfind
    refine ⟨hkind, ?_⟩
    unfold completed
    split
    · exact ⟨rest, hsplit.symm⟩
    · exact ⟨_, (congrArg (· ++ [_]) hsplit.symm).trans (List.append_assoc _ _ _)⟩

/-- After some of its tokens an input shows the next one, or the one that ends it. -/
theorem exists_completed_eq {ts used rest : List Token} (h : beforeEnd ts = used ++ rest) :
    ∃ more, completed ts = used ++ current (endToken ts) rest :: more := by
  obtain ⟨-, after, hafter⟩ := exists_completed ts
  rw [hafter, h, List.append_assoc]
  cases rest with
  | nil => exact ⟨after, rfl⟩
  | cons t rest => exact ⟨rest ++ endToken ts :: after, rfl⟩

/-- Inputs that agree on the tokens up to one show the same token after those before it. -/
theorem exists_of_completed_eq {ts : List Token} {used more : List Token} {t : Token}
    (h : completed ts = used ++ t :: more) (hused : ∀ t ∈ used, t.kind ≠ .eof) :
    ∃ rest, beforeEnd ts = used ++ rest ∧ current (endToken ts) rest = t ∧
      (rest = [] ↔ t.kind = .eof) := by
  obtain ⟨hstop, after, hafter⟩ := exists_completed ts
  obtain ⟨more', rfl, hmore⟩ | ⟨rest, hrest, hmore⟩ :=
    List.append_eq_append_iff.mp (hafter.symm.trans h)
  · cases more' with
    | nil =>
      cases hmore
      exact ⟨[], by rw [List.append_nil, List.append_nil], rfl, iff_of_true rfl hstop⟩
    | cons t' more' =>
      cases hmore
      exact absurd hstop (hused _ (by simp))
  · refine ⟨rest, hrest, ?_⟩
    cases rest with
    | nil =>
      cases hmore
      exact ⟨rfl, iff_of_true rfl hstop⟩
    | cons t' rest =>
      cases hmore
      have hmem : t ∈ beforeEnd ts := by simp [hrest]
      exact ⟨rfl, iff_of_false (List.cons_ne_nil _ _) (kind_ne_of_mem_beforeEnd hmem)⟩

theorem SameNext.of_current {stop stop' : Token} {ts ts' : List Token} (hnil : ts' = [] ↔ ts = [])
    (h : current stop' ts' = current stop ts) : SameNext stop ts stop' ts' := by
  cases ts with
  | nil =>
    obtain rfl := hnil.mpr rfl
    exact ⟨rfl, fun _ => h⟩
  | cons t rest =>
    cases ts' with
    | nil => cases hnil.mp rfl
    | cons t' rest' => exact ⟨congrArg some h, fun hcons => absurd hcons (List.cons_ne_nil _ _)⟩

theorem program_eq_error_iff {src : Source} {n : Nat} {ts : List Token} {e : ParseError} :
    Reader.program src n ts = .error e ↔ readProgram src n ts = .error e := by
  rw [readProgram_eq, map_eq_error_iff]
  rfl

/-- A failure to parse depends on the tokens that were used up and on the next one: every input that
starts with them fails alike. The token at fault is one of them, and it is the next one where that
is unexpected or opens a nested function. -/
theorem parse_error_of_take_eq {ts : List Token} {e : ParseError} (h : parse ts = .error e) :
    let i := (beforeEnd ts).length - e.unread.length
    e.unread = (beforeEnd ts).drop i ∧ e.token ∈ (completed ts).take (i + 1) ∧
      (e.fault.isNext = true → (completed ts)[i]? = some e.token) ∧
      ∀ ts', (completed ts').take (i + 1) = (completed ts).take (i + 1) →
        parse ts' = .error { e with unread := (beforeEnd ts').drop i } := by
  obtain ⟨used, hused, hplaced, hsame⟩ :=
    Reader.blames_program [] (beforeEnd ts) _ _ _ (program_eq_error_iff.mpr h)
  rw [List.nil_append] at hplaced
  have hi : (beforeEnd ts).length - e.unread.length = used.length := by
    rw [hused, List.length_append]
    omega
  have hkinds : ∀ t ∈ used, t.kind ≠ .eof := fun t ht =>
    kind_ne_of_mem_beforeEnd (hused.symm ▸ List.mem_append_left _ ht)
  obtain ⟨more, hmore⟩ := exists_completed_eq hused
  have htake : (completed ts).take (used.length + 1) =
      used ++ [current (endToken ts) e.unread] := by
    rw [hmore, List.take_length_add_append]
    rfl
  rw [hi]
  refine ⟨?_, ?_, fun hnext => ?_, fun ts' htake' => ?_⟩
  · rw [hused, List.drop_left]
  · rw [htake]
    exact hplaced.mem
  · rw [hmore, List.getElem?_append_right (Nat.le_refl _), Nat.sub_self, hplaced.next hnext]
    rfl
  · -- The other input starts with the same tokens, and its next one ends it if this one does.
    have hmore' : completed ts' =
        used ++ current (endToken ts) e.unread :: (completed ts').drop (used.length + 1) := by
      rw [← List.take_append_drop (used.length + 1) (completed ts'), htake', htake]
      simp
    obtain ⟨rest, hrest, -, hnil⟩ := exists_of_completed_eq hmore hkinds
    obtain rfl : rest = e.unread := List.append_cancel_left (hrest.symm.trans hused)
    obtain ⟨rest', hrest', hcurrent', hnil'⟩ := exists_of_completed_eq hmore' hkinds
    have hnext : SameNext (endToken ts) e.unread (endToken ts') rest' :=
      .of_current (hnil'.trans hnil.symm) hcurrent'
    rw [hrest', List.drop_left, parse, hrest']
    exact program_eq_error_iff.mp (hsame (.ofTokens ts') 0 rest' hnext)

/-- The line `a, b = 1`. -/
def unbalancedLine : List Token :=
  [⟨.ident "a", ⟨1, 1⟩⟩, ⟨.symbol .comma, ⟨1, 2⟩⟩, ⟨.ident "b", ⟨1, 4⟩⟩, ⟨.symbol .equal, ⟨1, 6⟩⟩,
    ⟨.int 1, ⟨1, 8⟩⟩, ⟨.newline, ⟨1, 9⟩⟩]

/-- What follows the line does not matter, also not if it takes the name of a fresh variable. -/
theorem parse_error_of_take_eq_unbalancedLine :
    parse unbalancedLine =
        .error ⟨.unbalanced 2 1, ⟨.ident "a", ⟨1, 1⟩⟩, [⟨.newline, ⟨1, 9⟩⟩]⟩ ∧
      ∃ unread, parse (unbalancedLine ++
        [⟨.ident (tempName 0), ⟨2, 1⟩⟩, ⟨.symbol .closeParen, ⟨2, 13⟩⟩]) =
        .error ⟨.unbalanced 2 1, ⟨.ident "a", ⟨1, 1⟩⟩, unread⟩ := by
  have h : parse unbalancedLine =
      .error ⟨.unbalanced 2 1, ⟨.ident "a", ⟨1, 1⟩⟩, [⟨.newline, ⟨1, 9⟩⟩]⟩ := by
    cbv
  obtain ⟨-, -, -, hsame⟩ := parse_error_of_take_eq h
  exact ⟨h, _, hsame _ (by decide)⟩

end Braces
