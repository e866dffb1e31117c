import Braces.Proofs.Emission.Expr
import Braces.Proofs.Syntax.Soundness
import Braces.Stmt.Read

/-!
# The statements that are read

Which statements the readers build, and from what: their expressions are phrases of the tokens,
apart from what the two forms of assignment add that are taken apart. Blocks have statements unless
the tokens close an indentation right where they open it, `return` stands in functions, and
functions stand at the top level. Whatever holds of all such statements holds of every program that
is read.
-/

namespace Braces

/-- An expression that tokens spell which stand together among others. -/
def Expr.SpelledIn (ks : List Kind) (e : Expr) : Prop := ∃ ks', Phrase 1 ks' e ∧ ks' <:+: ks

/-- A block has statements, unless its indentation is closed right where it is opened. -/
def Filled (ks : List Kind) (body : List Stmt) : Prop := body = [] → [.indent, .dedent] <:+: ks

/-- Statements that are read within a function or not, and the numbers from which fresh variables
are taken before and after them. -/
inductive Formed (taken : List String) (ks : List Kind) : Bool → Nat → List Stmt → Nat → Prop
  | none (f n) : Formed taken ks f n [] n
  | append {f n m l ss ss'} : Formed taken ks f n ss m → Formed taken ks f m ss' l →
      Formed taken ks f n (ss ++ ss') l
  | store {f n target value s} : target.SpelledIn ks → value.SpelledIn ks →
      storeTo? target value = some s → Formed taken ks f n [s] n
  | update {f n op target value s} : target.SpelledIn ks → value.SpelledIn ks →
      storeTo? target (.combine op target value) = some s → Formed taken ks f n [s] n
  | unpack {f n targets values r} : (∀ e ∈ targets, e.SpelledIn ks) →
      (∀ e ∈ values, e.SpelledIn ks) → tupleAssign taken n targets values = .ok r →
      Formed taken ks f n r.1 r.2
  | eval {f n e} : e.SpelledIn ks → Formed taken ks f n [.eval e] n
  | print {f n args} : (∀ e ∈ args, e.SpelledIn ks) → Formed taken ks f n [.print args] n
  | ret {n value} : (∀ e ∈ value, e.SpelledIn ks) → Formed taken ks true n [.ret value] n
  | pass (f n) : Formed taken ks f n [.pass] n
  | break_ (f n) : Formed taken ks f n [.break_] n
  | continue_ (f n) : Formed taken ks f n [.continue_] n
  | ifOnly {f n m cond body} : cond.SpelledIn ks → Filled ks body → Formed taken ks f n body m →
      Formed taken ks f n [.ifElse cond body none] m
  | ifElse {f n m l cond body orelse} : cond.SpelledIn ks → Filled ks body →
      Formed taken ks f n body m → Filled ks orelse → Formed taken ks f m orelse l →
      Formed taken ks f n [.ifElse cond body (some orelse)] l
  | whileLoop {f n m cond body} : cond.SpelledIn ks → Filled ks body → Formed taken ks f n body m →
      Formed taken ks f n [.whileLoop cond body] m
  | forLoop {f n m name iterable body} : .ident name ∈ ks → iterable.SpelledIn ks →
      Filled ks body → Formed taken ks f n body m →
      Formed taken ks f n [.forLoop name iterable body] m

/-- Functions and statements that are read. -/
inductive FormedProgram (taken : List String) (ks : List Kind) : Nat → Program → Prop
  | done (n) : FormedProgram taken ks n []
  | function {n m name params body p} : (∀ x ∈ name :: params, .ident x ∈ ks) → Filled ks body →
      Formed taken ks true n body m → FormedProgram taken ks m p →
      FormedProgram taken ks n (.funcDef name params body :: p)
  | free {n m ss p} : Formed taken ks false n ss m → FormedProgram taken ks m p →
      FormedProgram taken ks n (ss ++ p)

/-! ## Expressions -/

/-- What a reading gives of its value, with some of the tokens left. -/
def Within {α : Type} (ts : List Token) (P : α → Prop) (value : α) (rest : List Token) : Prop :=
  P value ∧ rest <:+ ts

theorem Gives.bindWithin {α β : Type} {n m : Nat} {ts : List Token} {P : α → Prop}
    {Q : β → List Token → Prop} {x : Except ParseError (Reading α n)}
    {f : Reading α n → Except ParseError (Reading β m)} (hx : Gives (Within ts P) x)
    (hf : ∀ value rest h, P value → rest <:+ ts → Gives Q (f ⟨value, rest, h⟩)) :
    Gives Q (x >>= f) :=
  hx.bind fun value rest h hwithin => hf value rest h hwithin.1 hwithin.2

theorem suffix_of_cons {t : Token} {ts all : List Token} (h : t :: ts <:+ all) : ts <:+ all :=
  (List.suffix_cons t ts).trans h

theorem infix_kinds {used rest all : List Token} (h : used ++ rest <:+ all) :
    kinds used <:+: kinds all :=
  List.IsInfix.map _ ((List.prefix_append used rest).isInfix.trans h.isInfix)

theorem Expr.SpelledIn.mono {ks ks' : List Kind} {e : Expr} (h : e.SpelledIn ks)
    (hks : ks <:+: ks') :
    e.SpelledIn ks' := by
  obtain ⟨used, hused, hinside⟩ := h
  exact ⟨used, hused, hinside.trans hks⟩

theorem Phrases.spelledIn : ∀ {ks : List Kind} {es : List Expr}, Phrases ks es →
    ∀ e ∈ es, e.SpelledIn ks
  | _, _, .none, _, he => nomatch he
  | _, _, .last h, e, he => by
    obtain rfl := List.mem_singleton.mp he
    exact ⟨_, h, List.infix_refl _⟩
  | _, _, .more h hs, e, he => by
    obtain rfl | he := List.mem_cons.mp he
    · exact ⟨_, h, (List.prefix_append _ _).isInfix⟩
    · exact (hs.spelledIn e he).mono
        ((List.suffix_cons _ _).trans (List.suffix_append _ _)).isInfix

section
variable {stop : Token} {ts all : List Token}

theorem gives_readExpr (h : ts <:+ all) :
    Gives (Within all (Expr.SpelledIn (kinds all))) (readExpr stop ts) := by
  refine (gives_readLevel stop .disjunction ts).mono ?_
  rintro e rest ⟨used, rfl, hphrase, -⟩
  exact ⟨⟨_, hphrase, infix_kinds h⟩, (List.suffix_append _ _).trans h⟩

theorem gives_items {close : Symbol} (h : ts <:+ all) :
    Gives (Within all fun es => ∀ e ∈ es, Expr.SpelledIn (kinds all) e)
      (readItems stop close ts) := by
  refine (gives_readItems stop close ts).mono ?_
  rintro es rest ⟨used, t, rfl, -, hphrases⟩
  constructor
  · intro e he
    exact (hphrases.spelledIn e he).mono (infix_kinds h)
  · exact suffix_of_cons ((List.suffix_append _ _).trans h)

theorem gives_readMore {ends : List Token → Bool} (ts : List Token) (h : ts <:+ all) :
    Gives (Within all fun es => ∀ e ∈ es, Expr.SpelledIn (kinds all) e)
      (readMore stop ends ts) := by
  unfold readMore
  split
  · next rest =>
    split
    · exact .ok ⟨List.forall_mem_nil _, suffix_of_cons h⟩
    · refine (gives_readExpr (suffix_of_cons h)).bindWithin fun e r₁ _ he hr₁ => ?_
      refine (gives_readMore r₁ hr₁).bindWithin fun es r₂ _ hes hr₂ => ?_
      exact .ok ⟨List.forall_mem_cons.mpr ⟨he, hes⟩, hr₂⟩
  · exact .ok ⟨List.forall_mem_nil _, h⟩
termination_by ts.length
decreasing_by
  subst_vars
  simp only [List.length_cons]
  omega

end

/-! ## Simple statements -/

section
variable {src : Source} {f : Bool} {next : Nat} {ts all : List Token}

/-- Statements that are read next. -/
def FormedFrom (src : Source) (all : List Token) (f : Bool) (next : Nat)
    (r : Numbered (List Stmt)) :
    Prop := Formed src.taken (kinds all) f next r.1 r.2

/-- The same, and at least one. -/
def SomeFormed (src : Source) (all : List Token) (f : Bool) (next : Nat)
    (r : Numbered (List Stmt)) :
    Prop := FormedFrom src all f next r ∧ r.1 ≠ []

theorem tupleAssign_ne_nil {taken : List String} {targets values : List Expr} {value : Expr}
    {r : Numbered (List Stmt)} (h : tupleAssign taken next targets (value :: values) = .ok r) :
    r.1 ≠ [] := by
  unfold tupleAssign at h
  split at h
  · cases h
  dsimp only at h
  split at h
  · cases h
  · cases h
    exact List.cons_ne_nil _ _

theorem gives_readAssignment (h : ts <:+ all) :
    Gives (Within all (SomeFormed src all f next)) (readAssignment src next ts) := by
  unfold readAssignment
  refine (gives_readExpr h).bindWithin fun first r _ hfirst hr => ?_
  have htail : r.tail <:+ all := (List.tail_suffix r).trans hr
  dsimp only
  split
  · refine (gives_readMore r hr).bindWithin fun targets r₁ _ htargets hr₁ => ?_
    refine gives_expect.bind fun _ r₂ _ hequal => ?_
    obtain ⟨t, rfl, -⟩ := hequal
    refine (gives_readExpr (suffix_of_cons hr₁)).bindWithin fun value r₃ _ hvalue hr₃ => ?_
    refine (gives_readMore r₃ hr₃).bindWithin fun values r₄ _ hvalues hr₄ => ?_
    dsimp only
    split
    · next hstmts =>
      refine .ok ⟨⟨.unpack ?_ ?_ hstmts, tupleAssign_ne_nil hstmts⟩, hr₄⟩
      · exact List.forall_mem_cons.mpr ⟨hfirst, htargets⟩
      · exact List.forall_mem_cons.mpr ⟨hvalue, hvalues⟩
    · exact .error _
  · refine (gives_readExpr htail).bindWithin fun value r₁ _ hvalue hr₁ => ?_
    dsimp only
    split
    · next hs => exact .ok ⟨⟨.store hfirst hvalue hs, List.cons_ne_nil _ _⟩, hr₁⟩
    · exact .error _
  · refine (gives_readExpr htail).bindWithin fun value r₁ _ hvalue hr₁ => ?_
    dsimp only
    split
    · next hs => exact .ok ⟨⟨.update hfirst hvalue hs, List.cons_ne_nil _ _⟩, hr₁⟩
    · exact .error _
  · exact .ok ⟨⟨.eval hfirst, List.cons_ne_nil _ _⟩, hr⟩

theorem gives_readSimple (h : ts <:+ all) :
    Gives (Within all (SomeFormed src all f next)) (readSimple src f next ts) := by
  unfold readSimple
  split
  · split
    · exact .error _
    next hf =>
    obtain rfl : f = true := by simpa using hf
    split
    · have hret : ∀ e' ∈ none, Expr.SpelledIn (kinds all) e' := by
        rintro _ ⟨⟩
      exact .ok ⟨⟨.ret hret, List.cons_ne_nil _ _⟩, suffix_of_cons h⟩
    · refine (gives_readExpr (suffix_of_cons h)).bindWithin fun e r₁ _ he hr₁ => ?_
      have hret : ∀ e' ∈ some e, e'.SpelledIn (kinds all) := by
        rintro _ ⟨⟩
        exact he
      exact .ok ⟨⟨.ret hret, List.cons_ne_nil _ _⟩, hr₁⟩
  · refine gives_expect.bind fun _ r₁ _ hopen => ?_
    obtain ⟨t, rfl, -⟩ := hopen
    refine (gives_items (suffix_of_cons (suffix_of_cons h))).bindWithin
      fun args r₂ _ hargs hr₂ => ?_
    exact .ok ⟨⟨.print hargs, List.cons_ne_nil _ _⟩, hr₂⟩
  · exact .ok ⟨⟨.pass f next, List.cons_ne_nil _ _⟩, suffix_of_cons h⟩
  · exact .ok ⟨⟨.break_ f next, List.cons_ne_nil _ _⟩, suffix_of_cons h⟩
  · exact .ok ⟨⟨.continue_ f next, List.cons_ne_nil _ _⟩, suffix_of_cons h⟩
  · exact gives_readAssignment h

theorem gives_readAfterSemicolons (next : Nat) (ts : List Token) (h : ts <:+ all) :
    Gives (Within all (FormedFrom src all f next)) (readAfterSemicolons src f next ts) := by
  unfold readAfterSemicolons
  split
  · split
    · exact .ok ⟨.none f next, suffix_of_cons h⟩
    · refine (gives_readSimple (suffix_of_cons h)).bindWithin fun s r₁ _ hs hr₁ => ?_
      refine (gives_readAfterSemicolons s.2 r₁ hr₁).bindWithin fun more r₂ _ hmore hr₂ => ?_
      exact .ok ⟨.append hs.1 hmore, hr₂⟩
  · exact .ok ⟨.none f next, h⟩
termination_by ts.length
decreasing_by
  subst_vars
  simp only [List.length_cons]
  omega

theorem gives_readLineEnd {stop : Token} (h : ts <:+ all) :
    Gives (Within all fun _ => True) (readLineEnd stop ts) := by
  unfold readLineEnd
  split
  · exact .ok ⟨trivial, suffix_of_cons h⟩
  · exact .ok ⟨trivial, h⟩
  · exact .ok ⟨trivial, h⟩
  · exact .ok ⟨trivial, h⟩
  · exact .error _

theorem SomeFormed.append {s more : Numbered (List Stmt)} (h : SomeFormed src all f next s)
    (hmore : FormedFrom src all f s.2 more) :
    SomeFormed src all f next (s.1 ++ more.1, more.2) :=
  ⟨.append h.1 hmore, List.append_ne_nil_of_left_ne_nil h.2 _⟩

theorem gives_readLine (h : ts <:+ all) :
    Gives (Within all (SomeFormed src all f next)) (readLine src f next ts) := by
  unfold readLine
  refine (gives_readSimple h).bindWithin fun s r₁ _ hs hr₁ => ?_
  refine (gives_readAfterSemicolons s.2 r₁ hr₁).bindWithin fun more r₂ _ hmore hr₂ => ?_
  refine (gives_readLineEnd hr₂).bindWithin fun _ r₃ _ _ hr₃ => ?_
  exact .ok ⟨hs.append hmore, hr₃⟩

end

/-! ## Blocks -/

theorem gives_expectIdent {stop : Token} {ts all : List Token} (h : ts <:+ all) :
    Gives (Within all fun name => .ident name ∈ kinds all) (expectIdent stop ts) := by
  unfold expectIdent
  split
  · exact .ok ⟨List.mem_map_of_mem (h.subset List.mem_cons_self), suffix_of_cons h⟩
  · exact .error _

/-- Statements of a block. -/
def BlockFormed (src : Source) (all : List Token) (f : Bool) (next : Nat)
    (r : Numbered (List Stmt)) :
    Prop := FormedFrom src all f next r ∧ Filled (kinds all) r.1

mutual

theorem gives_readBlock (src : Source) (f : Bool) (next : Nat) (ts all : List Token)
    (h : ts <:+ all) :
    Gives (Within all (BlockFormed src all f next)) (readBlock src f next ts) := by
  unfold readBlock
  refine gives_expect.bind fun _ r₁ hlt hcolon => ?_
  obtain ⟨t, rfl, -⟩ := hcolon
  have hr₁ := suffix_of_cons h
  dsimp only
  split
  · next r₂ hlt₁ =>
    refine gives_expect.bind fun _ r₃ hlt₂ hindent => ?_
    obtain ⟨i, rfl, hi⟩ := hindent
    have hopened : i :: r₃ <:+ all := suffix_of_cons hr₁
    refine (gives_readBody src f next r₃ all (suffix_of_cons hopened)).bind
      fun body r₄ _ hbody => ?_
    obtain ⟨⟨hbody, hr₄⟩, hempty⟩ := hbody
    refine .ok ⟨⟨hbody, fun hnil => ?_⟩, hr₄⟩
    -- An empty body ends with the token after the one that opens it.
    obtain ⟨d, more, rfl, hd⟩ := hempty hnil
    have hinside := @infix_kinds [i, d] more all hopened
    rwa [kinds_cons, kinds_cons, hi, hd] at hinside
  · refine (gives_readLine hr₁).bindWithin fun body r₃ _ hbody hr₃ => ?_
    exact .ok ⟨⟨hbody.1, fun hnil => absurd hnil hbody.2⟩, hr₃⟩
termination_by 4 * ts.length

/-- A body is empty only if it is closed at once. -/
theorem gives_readBody (src : Source) (f : Bool) (next : Nat) (ts all : List Token)
    (h : ts <:+ all) :
    Gives (fun r rest => Within all (FormedFrom src all f next) r rest ∧
      (r.1 = [] → ∃ t more, ts = t :: more ∧ t.kind = .dedent)) (readBody src f next ts) := by
  unfold readBody
  split
  · exact .error _
  · next t rest =>
    split
    · next ht => exact .ok ⟨⟨.none f next, suffix_of_cons h⟩, fun _ => ⟨t, rest, rfl, ht⟩⟩
    split
    · exact .error _
    · refine (gives_readStmt src f next (t :: rest) all h).bindWithin fun s r₁ hlt hs hr₁ => ?_
      refine (gives_readBody src f s.2 r₁ all hr₁).bind fun more r₂ _ hmore => ?_
      obtain ⟨⟨hmore, hr₂⟩, -⟩ := hmore
      have happended := hs.append hmore
      exact .ok ⟨⟨happended.1, hr₂⟩, fun hnil => absurd hnil happended.2⟩
termination_by 4 * ts.length + 2
decreasing_by
  all_goals
    subst_vars
    omega

theorem gives_readStmt (src : Source) (f : Bool) (next : Nat) (ts all : List Token)
    (h : ts <:+ all) :
    Gives (Within all (SomeFormed src all f next)) (readStmt src f next ts) := by
  unfold readStmt
  split
  · next rest =>
    refine (gives_readIf src f next rest all (suffix_of_cons h)).bindWithin fun s r₁ _ hs hr₁ => ?_
    exact .ok ⟨⟨hs, List.cons_ne_nil _ _⟩, hr₁⟩
  · next rest =>
    refine (gives_readExpr (suffix_of_cons h)).bindWithin fun cond r₁ hlt hcond hr₁ => ?_
    refine (gives_readBlock src f next r₁ all hr₁).bindWithin fun body r₂ _ hbody hr₂ => ?_
    exact .ok ⟨⟨.whileLoop hcond hbody.2 hbody.1, List.cons_ne_nil _ _⟩, hr₂⟩
  · next rest =>
    refine (gives_expectIdent (suffix_of_cons h)).bindWithin fun name r₁ hlt hname hr₁ => ?_
    refine gives_expect.bind fun _ r₂ hlt₁ hin => ?_
    obtain ⟨t, rfl, -⟩ := hin
    refine (gives_readExpr (suffix_of_cons hr₁)).bindWithin fun iterable r₃ hlt₂ hiterable hr₃ => ?_
    refine (gives_readBlock src f next r₃ all hr₃).bindWithin fun body r₄ _ hbody hr₄ => ?_
    exact .ok ⟨⟨.forLoop hname hiterable hbody.2 hbody.1, List.cons_ne_nil _ _⟩, hr₄⟩
  · exact .error _
  · exact gives_readLine h
termination_by 4 * ts.length + 1
decreasing_by
  all_goals
    subst_vars
    simp only [List.length_cons] at *
    omega

theorem gives_readIf (src : Source) (f : Bool) (next : Nat) (ts all : List Token)
    (h : ts <:+ all) :
    Gives (Within all fun r => Formed src.taken (kinds all) f next [r.1] r.2)
      (readIf src f next ts) := by
  unfold readIf
  refine (gives_readExpr h).bindWithin fun cond r₁ hlt hcond hr₁ => ?_
  refine (gives_readBlock src f next r₁ all hr₁).bindWithin fun body r₂ hlt₁ hbody hr₂ => ?_
  dsimp only
  split
  · next r₃ hlt₂ =>
    have hshorter : r₃.length < ts.length := Nat.lt_trans (Nat.lt_of_succ_lt hlt₂) hlt
    refine (gives_readIf src f body.2 r₃ all (suffix_of_cons hr₂)).bindWithin
      fun s r₄ _ hs hr₄ => ?_
    have hfilled : Filled (kinds all) [s.1] := fun hnil => absurd hnil (List.cons_ne_nil _ _)
    exact .ok ⟨.ifElse hcond hbody.2 hbody.1 hfilled hs, hr₄⟩
  · next r₃ hlt₂ =>
    have hshorter : r₃.length < ts.length := Nat.lt_trans (Nat.lt_of_succ_lt hlt₂) hlt
    refine (gives_readBlock src f body.2 r₃ all (suffix_of_cons hr₂)).bindWithin
      fun orelse r₄ _ horelse hr₄ => ?_
    exact .ok ⟨.ifElse hcond hbody.2 hbody.1 horelse.2 horelse.1, hr₄⟩
  · exact .ok ⟨.ifOnly hcond hbody.2 hbody.1, hr₂⟩
termination_by 4 * ts.length

end

/-! ## Programs -/

theorem gives_readParams (stop : Token) (ts all : List Token) (h : ts <:+ all) :
    Gives (Within all fun names => ∀ x ∈ names, .ident x ∈ kinds all) (readParams stop ts) := by
  unfold readParams
  split
  · exact .ok ⟨List.forall_mem_nil _, suffix_of_cons h⟩
  · refine (gives_expectIdent h).bindWithin fun name r₁ hlt hname hr₁ => ?_
    dsimp only
    split
    · next r₂ hlt₁ =>
      have hshorter : r₂.length < ts.length := Nat.lt_of_succ_lt hlt₁
      refine (gives_readParams stop r₂ all (suffix_of_cons hr₁)).bindWithin
        fun names r₃ _ hnames hr₃ => ?_
      exact .ok ⟨List.forall_mem_cons.mpr ⟨hname, hnames⟩, hr₃⟩
    · refine gives_expect.bind fun _ r₃ _ hclose => ?_
      obtain ⟨t, rfl, -⟩ := hclose
      exact .ok ⟨List.forall_mem_singleton.mpr hname, suffix_of_cons hr₁⟩
termination_by ts.length

theorem gives_readFunction {src : Source} {next : Nat} {ts all : List Token} (h : ts <:+ all) :
    Gives (Within all fun r => ∃ name params body, r.1 = .funcDef name params body ∧
      (∀ x ∈ name :: params, .ident x ∈ kinds all) ∧ BlockFormed src all true next (body, r.2))
      (readFunction src next ts) := by
  unfold readFunction
  refine gives_expect.bind fun _ r₁ _ hdef => ?_
  obtain ⟨t, rfl, -⟩ := hdef
  refine (gives_expectIdent (suffix_of_cons h)).bindWithin fun name r₂ _ hname hr₂ => ?_
  refine gives_expect.bind fun _ r₃ _ hopen => ?_
  obtain ⟨t', rfl, -⟩ := hopen
  refine (gives_readParams src.stop r₃ all (suffix_of_cons hr₂)).bindWithin
    fun params r₄ _ hparams hr₄ => ?_
  refine (gives_readBlock src true next r₄ all hr₄).bindWithin fun body r₅ _ hbody hr₅ => ?_
  exact .ok ⟨⟨name, params, body.1, rfl, List.forall_mem_cons.mpr ⟨hname, hparams⟩, hbody⟩, hr₅⟩

theorem formedProgram_readProgram {src : Source} (next : Nat) (ts all : List Token)
    (h : ts <:+ all) {p : Program} (hp : readProgram src next ts = .ok p) :
    FormedProgram src.taken (kinds all) next p := by
  unfold readProgram at hp
  split at hp
  · cases hp
    exact .done next
  split at hp
  · cases hp
    exact .done next
  split at hp
  · exact formedProgram_readProgram next _ all (suffix_of_cons h) hp
  split at hp
  · obtain ⟨⟨⟨f, next'⟩, r₁, hlt⟩, hf, hp⟩ := exists_of_bind_eq_ok hp
    obtain ⟨rest, hrest, hp⟩ := exists_of_bind_eq_ok hp
    cases hp
    obtain ⟨⟨name, params, body, rfl, hnames, hbody, hfilled⟩, hr₁⟩ := gives_readFunction h _ hf
    exact .function hnames hfilled hbody (formedProgram_readProgram next' r₁ all hr₁ hrest)
  · obtain ⟨⟨⟨s, next'⟩, r₁, hlt⟩, hs, hp⟩ := exists_of_bind_eq_ok hp
    obtain ⟨rest, hrest, hp⟩ := exists_of_bind_eq_ok hp
    cases hp
    obtain ⟨⟨hformed, -⟩, hr₁⟩ := gives_readStmt src false next _ all h _ hs
    exact .free hformed (formedProgram_readProgram next' r₁ all hr₁ hrest)
termination_by ts.length
decreasing_by
  all_goals
    subst_vars
    first
    | exact Nat.lt_succ_self _
    | assumption

theorem kind_ne_of_mem_beforeEnd {ts : List Token} {t : Token} (h : t ∈ beforeEnd ts) :
    t.kind ≠ .eof := by
  have hall : (beforeEnd ts).all (·.kind ≠ .eof) = true := List.all_takeWhile
  simpa using List.all_eq_true.mp hall t h

/-- What is parsed is formed from the tokens before the end of the input. -/
theorem formedProgram_parse {ts : List Token} {p : Program} (h : parse ts = .ok p) :
    FormedProgram (identifiers ts) (kinds (beforeEnd ts)) 0 p :=
  formedProgram_readProgram 0 (beforeEnd ts) (beforeEnd ts) (List.suffix_refl _) h

end Braces
