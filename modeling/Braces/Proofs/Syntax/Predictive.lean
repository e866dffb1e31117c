import Braces.Proofs.Emission.Expr
import Braces.Proofs.Syntax.Soundness
import Braces.Stmt.Read

/-!
# Readers that look one token ahead

A reader goes by the tokens that it uses up and the one after them: whatever else follows, and
whatever the input is called from, it gives the same, and it fails in the same way. This is kept by
every way of making readers out of readers (`Made`), and all readers of expressions are made so.
-/

namespace Braces

theorem Kind.symbol_ne_eof (s : Symbol) : Kind.symbol s ≠ .eof := nofun

theorem Kind.keyword_ne_eof (k : Keyword) : Kind.keyword k ≠ .eof := nofun

theorem Level.operator?_eof (l : Level) : l.operator? .eof = none := by cases l <;> rfl

theorem map_eq_error_iff {ε α β : Type} {x : Except ε α} {f : α → β} {e : ε} :
    x.map f = .error e ↔ x = .error e := by
  cases x with
  | error e' => exact ⟨fun h => by cases h; rfl, fun h => by cases h; rfl⟩
  | ok a => exact iff_of_false (fun h => by cases h) (fun h => by cases h)

/-- What is read from some place on: a value, the number from which fresh variables are taken next,
and the tokens left. -/
abbrev Reader (α : Type) := Source → Nat → List Token → Except ParseError (α × Nat × List Token)

/-- Two inputs show the same token next. -/
structure SameNext (stop : Token) (ts : List Token) (stop' : Token) (ts' : List Token) : Prop where
  head : ts'.head? = ts.head?
  stop : ts = [] → stop' = stop

theorem SameNext.append {stop stop' : Token} {ts ts' : List Token} (h : SameNext stop ts stop' ts')
    (used : List Token) : SameNext stop (used ++ ts) stop' (used ++ ts') := by
  cases used with
  | nil => exact h
  | cons t used => exact ⟨rfl, fun hnil => absurd hnil (List.cons_ne_nil _ _)⟩

theorem SameNext.current_eq {stop stop' : Token} {ts ts' : List Token}
    (h : SameNext stop ts stop' ts') : current stop' ts' = current stop ts := by
  cases ts with
  | nil =>
    obtain rfl := List.head?_eq_none_iff.mp h.head
    exact h.stop rfl
  | cons t rest =>
    obtain ⟨rest', rfl⟩ := List.head?_eq_some_iff.mp h.head
    rfl

/-- Faults of the token that is to be read next. -/
def ParseFault.isNext : ParseFault → Bool
  | .unexpected _ | .nestedFunction => true
  | _ => false

/-- A failure names a token that was used up or the next one. -/
structure ParseError.Placed (e : ParseError) (stop : Token) (used : List Token) : Prop where
  mem : e.token ∈ used ++ [current stop e.unread]
  next : e.fault.isNext = true → e.token = current stop e.unread

/-- A token that was used up is at fault. -/
theorem ParseError.Placed.of_mem {fault : ParseFault} {t stop : Token} {used unread : List Token}
    (ht : t ∈ used) (hfault : fault.isNext = false) :
    ParseError.Placed ⟨fault, t, unread⟩ stop used :=
  ⟨List.mem_append_left _ ht, fun hnext => absurd (hfault.symm.trans hnext) Bool.false_ne_true⟩

namespace Reader

variable {α β γ : Type} {before ts : List Token} {p : Reader α} {q : Reader β} {k : α → Reader β}

/-- A failure goes by the tokens that are used up and the one after them. Some tokens were used up
before. -/
def Blames (before : List Token) (p : Reader α) (ts : List Token) : Prop :=
  ∀ src n e, p src n ts = .error e → ∃ used, ts = used ++ e.unread ∧
    e.Placed src.stop (before ++ used) ∧
      ∀ src' n' rest', SameNext src.stop e.unread src'.stop rest' →
      p src' n' (used ++ rest') = .error { e with unread := rest' }

/-- All that is given goes by the tokens that are used up and the one after them. -/
structure Predictive (before : List Token) (p : Reader α) (ts : List Token) : Prop where
  ok : ∀ src n value m rest, p src n ts = .ok (value, m, rest) → ∃ used, ts = used ++ rest ∧
    ∀ src' n' rest', SameNext src.stop rest src'.stop rest' →
      ∃ m', p src' n' (used ++ rest') = .ok (value, m', rest')
  error : Blames before p ts

/-! ## Ways to make readers -/

def pure (value : α) : Reader α := fun _ n ts => .ok (value, n, ts)

/-- Fails at the next token. -/
def refuse (fault : ParseFault) : Reader α := fun src _ ts =>
  .error ⟨fault, current src.stop ts, ts⟩

/-- Fails with a token that was used up. -/
def blame (fault : ParseFault) (t : Token) : Reader α := fun _ _ ts => .error ⟨fault, t, ts⟩

/-- Gives what fresh variables are needed for, unless there is a fault, which names a token that was
used up. -/
def settle (outcome : List String → Nat → Except ParseFault (Numbered α)) (t : Token) : Reader α :=
  fun src n ts =>
    match outcome src.taken n with
    | .ok r => .ok (r.1, r.2, ts)
    | .error fault => .error ⟨fault, t, ts⟩

/-- Goes on after the next token. -/
def skip (p : Reader α) : Reader α := fun src n ts => p src n ts.tail

def bind (p : Reader α) (k : α → Reader β) : Reader β := fun src n ts =>
  p src n ts >>= fun r => k r.1 src r.2.1 r.2.2

/-- One reader after the other, of which the second one does not depend on what the first one
gives. -/
def both (g : α → β → γ) (p : Reader α) (q : Reader β) : Reader γ :=
  p.bind fun a => q.bind fun b => pure (g a b)

def map (f : α → β) (p : Reader α) : Reader β := both (fun a _ => f a) p (pure ())

/-- Keeps to itself what is given. -/
def forget (p : Reader α) : Reader Unit := fun src n ts => (p src n ts).map fun r => ((), r.2)

/-- Chooses by the next token. -/
def branch (b : Option Token → Reader α) : Reader α := fun src n ts => b ts.head? src n ts

/-- Uses up the next token if it is of the given kind. -/
def ifNext (kind : Kind) (p q : Reader α) : Reader α :=
  branch fun t => if t.map (·.kind) = some kind then skip p else q

theorem predictive_pure {value : α} : Predictive before (pure value) ts := by
  constructor
  · rintro src n _ m rest ⟨⟩
    exact ⟨[], rfl, fun _ n' _ _ => ⟨n', rfl⟩⟩
  · rintro src n e ⟨⟩

theorem predictive_refuse {fault : ParseFault} :
    Predictive before (refuse fault : Reader α) ts := by
  constructor
  · rintro src n _ m rest ⟨⟩
  · rintro src n e ⟨⟩
    refine ⟨[], rfl, ⟨?_, fun _ => rfl⟩, fun src' n' rest' hnext => ?_⟩
    · exact List.mem_append_right _ (List.mem_singleton_self _)
    · rw [← hnext.current_eq]
      rfl

theorem predictive_blame {fault : ParseFault} {t : Token} (ht : t ∈ before)
    (hfault : fault.isNext = false) : Predictive before (blame fault t : Reader α) ts := by
  constructor
  · rintro src n _ m rest ⟨⟩
  · rintro src n e ⟨⟩
    exact ⟨[], rfl, .of_mem (List.mem_append_left _ ht) hfault, fun _ _ _ _ => rfl⟩

/-- Whether there is a fault does not depend on names anywhere in the input. -/
theorem predictive_settle {outcome : List String → Nat → Except ParseFault (Numbered α)} {t : Token}
    (ht : t ∈ before)
    (hnext : ∀ {taken n fault}, outcome taken n = .error fault → fault.isNext = false)
    (hsame : ∀ taken n taken' n',
      (outcome taken' n').map (fun _ => ()) = (outcome taken n).map fun _ => ()) :
    Predictive before (settle outcome t).forget ts := by
  constructor
  · intro src n value m rest hok
    cases hm : outcome src.taken n with
    | error fault =>
      rw [forget, settle, hm] at hok
      cases hok
    | ok r =>
      rw [forget, settle, hm] at hok
      cases hok
      refine ⟨[], rfl, fun src' n' rest' _ => ?_⟩
      have hsame := hsame src.taken n src'.taken n'
      rw [hm] at hsame
      cases hm' : outcome src'.taken n' with
      | ok r' =>
        refine ⟨r'.2, ?_⟩
        rw [forget, settle, List.nil_append, hm']
        rfl
      | error fault =>
        rw [hm'] at hsame
        cases hsame
  · intro src n e he
    cases hm : outcome src.taken n with
    | ok r =>
      rw [forget, settle, hm] at he
      cases he
    | error fault =>
      rw [forget, settle, hm] at he
      cases he
      refine ⟨[], rfl, .of_mem (List.mem_append_left _ ht) (hnext hm), fun src' n' rest' _ => ?_⟩
      have hsame := hsame src.taken n src'.taken n'
      rw [hm] at hsame
      cases hm' : outcome src'.taken n' with
      | ok r' =>
        rw [hm'] at hsame
        cases hsame
      | error fault' =>
        rw [hm'] at hsame
        cases hsame
        rw [forget, settle, List.nil_append, hm']
        rfl

theorem Blames.skip {t : Token} (h : Blames (before ++ [t]) p ts) :
    Blames before p.skip (t :: ts) := by
  intro src n e he
  obtain ⟨used, rfl, hplaced, hsame⟩ := h src n e he
  refine ⟨t :: used, rfl, ?_, hsame⟩
  rwa [List.append_assoc] at hplaced

theorem Predictive.skip {t : Token} (ht : ts.head? = some t)
    (h : ∀ rest, ts = t :: rest → Predictive (before ++ [t]) p rest) :
    Predictive before p.skip ts := by
  obtain ⟨rest, rfl⟩ := List.head?_eq_some_iff.mp ht
  refine ⟨fun src n value m rest' hok => ?_, (h rest rfl).error.skip⟩
  obtain ⟨used, rfl, hsame⟩ := (h rest rfl).ok src n value m rest' hok
  exact ⟨t :: used, rfl, hsame⟩

/-- The first reader is followed by one whose failures go by what it uses up. -/
theorem Predictive.bindBlames (h : Predictive before p ts)
    (hk : ∀ {src n value m rest}, p src n ts = .ok (value, m, rest) → ∀ {used}, ts = used ++ rest →
      Blames (before ++ used) (k value) rest) : Blames before (p.bind k) ts := by
  intro src n e he
  cases hp : p src n ts with
  | error e' =>
    rw [bind, hp] at he
    cases he
    obtain ⟨used, hts, hplaced, hsame⟩ := h.error src n e hp
    refine ⟨used, hts, hplaced, fun src' n' rest' hnext => ?_⟩
    rw [bind, hsame src' n' rest' hnext]
    rfl
  | ok r =>
    obtain ⟨value, m, rest⟩ := r
    rw [bind, hp] at he
    obtain ⟨used, hts, hsame⟩ := h.ok _ _ _ _ _ hp
    obtain ⟨used', rfl, hplaced, hsame'⟩ := hk hp hts _ _ _ he
    refine ⟨used ++ used', hts.trans (List.append_assoc _ _ _).symm, ?_,
      fun src' n' rest' hnext => ?_⟩
    · rwa [← List.append_assoc]
    · obtain ⟨m', hm'⟩ := hsame src' n' _ (hnext.append used')
      rw [bind, List.append_assoc, hm']
      exact hsame' src' m' rest' hnext

theorem Predictive.bind (h : Predictive before p ts)
    (hk : ∀ {src n value m rest}, p src n ts = .ok (value, m, rest) → ∀ {used}, ts = used ++ rest →
      Predictive (before ++ used) (k value) rest) : Predictive before (p.bind k) ts := by
  refine ⟨fun src n _ _ rest₁ hok => ?_, h.bindBlames fun hp _ hused => (hk hp hused).error⟩
  obtain ⟨⟨value, m, rest⟩, hp, hok⟩ := exists_of_bind_eq_ok hok
  obtain ⟨used, hts, hsame⟩ := h.ok _ _ _ _ _ hp
  obtain ⟨used', rfl, hsame'⟩ := (hk hp hts).ok _ _ _ _ _ hok
  refine ⟨used ++ used', hts.trans (List.append_assoc _ _ _).symm, fun src' n' rest' hnext => ?_⟩
  obtain ⟨m', hm'⟩ := hsame src' n' _ (hnext.append used')
  rw [Reader.bind, List.append_assoc, hm']
  exact hsame' src' m' rest' hnext

theorem Blames.branch {b : Option Token → Reader α} (h : Blames before (b ts.head?) ts) :
    Blames before (branch b) ts := by
  intro src n e he
  obtain ⟨used, rfl, hplaced, hsame⟩ := h src n e he
  refine ⟨used, rfl, hplaced, fun src' n' rest' hnext => ?_⟩
  rw [Reader.branch, (hnext.append used).head]
  exact hsame src' n' rest' hnext

theorem Predictive.branch {b : Option Token → Reader α} (h : Predictive before (b ts.head?) ts) :
    Predictive before (branch b) ts := by
  refine ⟨fun src n value m rest hok => ?_, h.error.branch⟩
  obtain ⟨used, rfl, hsame⟩ := h.ok src n value m rest hok
  refine ⟨used, rfl, fun src' n' rest' hnext => ?_⟩
  rw [Reader.branch, (hnext.append used).head]
  exact hsame src' n' rest' hnext

/-! ## What readers are made of -/

theorem forget_bind (p : Reader α) (k : α → Reader β) :
    (p.bind k).forget = p.bind fun a => (k a).forget := by
  funext src n ts
  rw [forget, bind, bind]
  cases p src n ts <;> rfl

theorem forget_both (g : α → β → γ) (p : Reader α) (q : Reader β) :
    (both g p q).forget = p.forget.bind fun _ => q.forget := by
  funext src n ts
  rw [both, forget_bind, bind, bind, forget]
  cases p src n ts with
  | error e => rfl
  | ok r =>
    change (q.bind _).forget src r.2.1 r.2.2 = q.forget src r.2.1 r.2.2
    rw [forget_bind, bind, forget]
    cases q src r.2.1 r.2.2 <;> rfl

theorem forget_branch (b : Option Token → Reader α) :
    (branch b).forget = branch fun t => (b t).forget := rfl

theorem exists_of_forget {src : Source} {n m : Nat} {value : Unit} {rest : List Token}
    (h : p.forget src n ts = .ok (value, m, rest)) :
    ∃ value, p src n ts = .ok (value, m, rest) := by
  cases hp : p src n ts with
  | error e =>
    rw [forget, hp] at h
    cases h
  | ok r =>
    obtain ⟨value', m', rest'⟩ := r
    rw [forget, hp] at h
    cases h
    exact ⟨value', rfl⟩

theorem forget_eq_error_iff {src : Source} {n : Nat} {e : ParseError} :
    p.forget src n ts = .error e ↔ p src n ts = .error e :=
  map_eq_error_iff

theorem Blames.of_forget (h : Blames before p.forget ts) : Blames before p ts := by
  intro src n e he
  obtain ⟨used, hts, hplaced, hsame⟩ := h src n e (forget_eq_error_iff.mpr he)
  exact ⟨used, hts, hplaced,
    fun src' n' rest' hnext => forget_eq_error_iff.mp (hsame src' n' rest' hnext)⟩

/-- What the value of a reader goes by: the tokens that are used up, or the names anywhere in the
input as well, which fresh variables keep clear of. -/
inductive Basis where
  | used | names

/-- How readers are made, at a place in the input. Only tokens that do not end the input are used
up, and at the end of the input the choice is that for no token. -/
inductive Made : {α : Type} → Basis → List Token → Reader α → List Token → Prop
  | pure {α : Type} {basis : Basis} {before ts : List Token} {value : α} :
    Made basis before (Reader.pure value) ts
  | refuse {α : Type} {basis : Basis} {before ts : List Token} {fault : ParseFault} :
    Made basis before (Reader.refuse fault : Reader α) ts
  | blame {α : Type} {basis : Basis} {before ts : List Token} {fault : ParseFault} {t : Token}
    (ht : t ∈ before) (hfault : fault.isNext = false) :
    Made basis before (Reader.blame fault t : Reader α) ts
  | settle {α : Type} {before ts : List Token}
    {outcome : List String → Nat → Except ParseFault (Numbered α)} {t : Token} (ht : t ∈ before)
    (hnext : ∀ {taken n fault}, outcome taken n = .error fault → fault.isNext = false)
    (hsame : ∀ taken n taken' n',
      (outcome taken' n').map (fun _ => ()) = (outcome taken n).map fun _ => ()) :
    Made .names before (Reader.settle outcome t) ts
  | skip {α : Type} {basis : Basis} {before ts : List Token} {p : Reader α} {t : Token}
    (ht : ts.head? = some t) (hkind : t.kind ≠ .eof)
    (h : ∀ rest, ts = t :: rest → Made basis (before ++ [t]) p rest) : Made basis before p.skip ts
  | bind {α β : Type} {basis : Basis} {before ts : List Token} {p : Reader α} {k : α → Reader β}
    (h : Made .used before p ts)
    (hk : ∀ {src n value m rest}, p src n ts = .ok (value, m, rest) → ∀ {used}, ts = used ++ rest →
      Made basis (before ++ used) (k value) rest) : Made basis before (p.bind k) ts
  | both {α β γ : Type} {before ts : List Token} {g : α → β → γ} {p : Reader α} {q : Reader β}
    (h : Made .names before p ts)
    (hq : ∀ {src n value m rest}, p src n ts = .ok (value, m, rest) → ∀ {used}, ts = used ++ rest →
      Made .names (before ++ used) q rest) : Made .names before (Reader.both g p q) ts
  | branch {α : Type} {basis : Basis} {before ts : List Token} {b : Option Token → Reader α}
    (heof : ∀ pos later src n, b (some ⟨.eof, pos⟩) src n (⟨.eof, pos⟩ :: later) =
      b none src n (⟨.eof, pos⟩ :: later))
    (h : Made basis before (b ts.head?) ts) : Made basis before (Reader.branch b) ts

variable {basis : Basis}

theorem Made.map {f : α → β} (h : Made .names before p ts) : Made .names before (map f p) ts :=
  h.both fun _ _ _ => .pure

/-- Whether a reader fails, and how far it reads, goes by the tokens that are used up and the one
after them. So does what it gives, if it is based on these. -/
theorem Made.predictive (h : Made basis before p ts) :
    Predictive before p.forget ts ∧ (basis = .used → Predictive before p ts) := by
  induction h with
  | pure => exact ⟨predictive_pure, fun _ => predictive_pure⟩
  | refuse => exact ⟨predictive_refuse, fun _ => predictive_refuse⟩
  | blame ht hfault => exact ⟨predictive_blame ht hfault, fun _ => predictive_blame ht hfault⟩
  | settle ht hnext hsame => exact ⟨predictive_settle ht hnext hsame, by rintro ⟨⟩⟩
  | skip ht hkind h ih =>
    constructor
    · exact .skip ht fun rest hts => (ih rest hts).1
    · exact fun hbasis => .skip ht fun rest hts => (ih rest hts).2 hbasis
  | bind h hk ih ihk =>
    constructor
    · rw [forget_bind]
      exact (ih.2 rfl).bind fun hp _ hused => (ihk hp hused).1
    · exact fun hbasis => (ih.2 rfl).bind fun hp _ hused => (ihk hp hused).2 hbasis
  | both h hq ih ihq =>
    refine ⟨?_, by rintro ⟨⟩⟩
    rw [forget_both]
    refine ih.1.bind fun hp _ hused => ?_
    obtain ⟨value, hp⟩ := exists_of_forget hp
    exact (ihq hp hused).1
  | branch heof h ih =>
    refine ⟨?_, fun hbasis => .branch (ih.2 hbasis)⟩
    rw [forget_branch]
    exact .branch ih.1

theorem made_ifNext {kind : Kind} {p q : Reader α} (hkind : kind ≠ .eof)
    (hp : ∀ {t} rest, ts = t :: rest → Made basis (before ++ [t]) p rest)
    (hq : Made basis before q ts) :
    Made basis before (ifNext kind p q) ts := by
  refine .branch (fun pos later src n => ?_) ?_
  · have hne : ¬ some Kind.eof = some kind := fun heq => hkind (Option.some.inj heq).symm
    simp [hne]
  · split
    · next hnext =>
      obtain ⟨t, ht, rfl⟩ := Option.map_eq_some_iff.mp hnext
      exact .skip ht hkind hp
    · exact hq

theorem ifNext_cons {kind : Kind} {p q : Reader α} (src : Source) (n : Nat) (pos : Pos)
    (ts : List Token) :
    ifNext kind p q src n (⟨kind, pos⟩ :: ts) = p src n ts := by
  rw [ifNext, branch, List.head?_cons, Option.map_some, if_pos rfl]
  rfl

theorem ifNext_of_ne {kind : Kind} {p q : Reader α} (h : ∀ pos rest, ts ≠ ⟨kind, pos⟩ :: rest)
    (src : Source) (n : Nat) : ifNext kind p q src n ts = q src n ts := by
  rw [ifNext, branch, if_neg]
  intro hkind
  obtain ⟨t, ht, rfl⟩ := Option.map_eq_some_iff.mp hkind
  obtain ⟨rest, rfl⟩ := List.head?_eq_some_iff.mp ht
  exact h t.pos rest rfl

/-! ## Expressions -/

/-- A reader that takes no fresh variables. -/
def plain {bound : List Token → Nat}
    (read : Token → (ts : List Token) → Except ParseError (Reading α (bound ts))) : Reader α :=
  fun src n ts => (read src.stop ts).map fun r => (r.value, n, r.rest)

theorem shorter_of_map {γ : Type} {b m : Nat} {x : Except ParseError (Reading γ b)}
    {view : Reading γ b → α × Nat} {value : α} {rest : List Token}
    (h : (x.map fun r => ((view r).1, (view r).2, r.rest)) = .ok (value, m, rest)) :
    rest.length < b := by
  cases x with
  | error e => cases h
  | ok r =>
    cases h
    exact r.shorter

theorem shorter_of_plain {bound : List Token → Nat}
    {read : Token → (ts : List Token) → Except ParseError (Reading α (bound ts))}
    {src : Source} {n m : Nat}
    {value : α} {rest : List Token} (h : plain read src n ts = .ok (value, m, rest)) :
    rest.length < bound ts :=
  @shorter_of_map _ _ _ _ _ (fun r => (r.value, n)) _ _ h

/-- What follows a reading is read from what it leaves. -/
theorem map_bind {ε α β γ δ : Type} {x : Except ε α} {f : α → Except ε β} {g : β → γ} {view : α → δ}
    {k : δ → Except ε γ} (hk : ∀ a, (f a).map g = k (view a)) :
    (x >>= f).map g = x.map view >>= k := by
  cases x with
  | error e => rfl
  | ok a => exact hk a

def token (kind : Kind) : Reader Unit := plain fun stop => expect stop kind

def name : Reader String := plain expectIdent

def level (l : Level) : Reader Expr := plain fun stop => readLevel stop l

def levelTail (l : Level) (left : Expr) : Reader Expr := plain fun stop => readTail stop l left

def operand (l : Level) : Reader Expr := plain fun stop => readOperand stop l

def negation : Reader Expr := plain readNot

def signed : Reader Expr := plain readSigned

def subscripts (target : Expr) : Reader Expr := plain fun stop => readSubscripts stop target

def atom : Reader Expr := plain readAtom

def items (close : Symbol) : Reader (List Expr) := plain fun stop => readItems stop close

theorem token_eq (kind : Kind) :
    token kind = ifNext kind (pure ()) (refuse (.unexpected (.kind kind))) := by
  funext src n ts
  change (expect src.stop kind ts).map _ = _
  unfold expect
  split
  · rfl
  · split
    · next hk =>
      subst hk
      rw [ifNext_cons]
      rfl
    · next hk =>
      rw [ifNext_of_ne]
      · rfl
      · rintro pos rest ⟨⟩
        exact hk rfl

theorem name_eq : name = branch fun
    | some ⟨.ident x, _⟩ => skip (pure x)
    | _ => refuse (.unexpected .identifier) := by
  funext src n ts
  change (expectIdent src.stop ts).map _ = _
  rcases ts with _ | ⟨⟨k, pos⟩, rest⟩
  · rfl
  · cases k <;> rfl

theorem level_eq (l : Level) :
    level l = (operand l).bind fun left => (levelTail l left).bind pure := by
  funext src n ts
  change (readLevel src.stop l ts).map _ = _
  rw [readLevel]
  exact map_bind fun _ => map_bind fun _ => rfl

theorem levelTail_eq (l : Level) (left : Expr) : levelTail l left = branch fun t =>
    match t.bind fun t => l.operator? t.kind with
    | none => pure left
    | some op =>
      skip ((operand l).bind fun right => (levelTail l (.combine op left right)).bind pure) := by
  funext src n ts
  change (readTail src.stop l left ts).map _ = _
  unfold readTail
  split
  · rfl
  · next t rest =>
    rw [branch, List.head?_cons, Option.bind_some]
    cases l.operator? t.kind with
    | none => rfl
    | some op => exact map_bind fun _ => map_bind fun _ => rfl

theorem negation_eq : negation =
    ifNext (.keyword .not) (negation.bind fun e => pure (.unary .not e)) (level .comparison) := by
  funext src n ts
  change (readNot src.stop ts).map _ = _
  unfold readNot
  split
  · rw [ifNext_cons]
    exact map_bind fun _ => rfl
  · next hne =>
    rw [ifNext_of_ne hne]
    rfl

theorem signed_eq : signed =
    ifNext (.symbol .plus) (signed.bind fun e => pure (.unary .plus e))
      (ifNext (.symbol .minus) (signed.bind fun e => pure (.unary .neg e))
        (atom.bind fun e => (subscripts e).bind pure)) := by
  funext src n ts
  change (readSigned src.stop ts).map _ = _
  unfold readSigned
  split
  · rw [ifNext_cons]
    exact map_bind fun _ => rfl
  · rw [ifNext_of_ne (by rintro _ _ ⟨⟩), ifNext_cons]
    exact map_bind fun _ => rfl
  · next hplus hminus =>
    rw [ifNext_of_ne hplus, ifNext_of_ne hminus]
    exact map_bind fun _ => map_bind fun _ => rfl

theorem subscripts_eq (target : Expr) : subscripts target =
    ifNext (.symbol .openSquare) ((level .disjunction).bind fun i =>
      (token (.symbol .closeSquare)).bind fun _ => (subscripts (.index target i)).bind pure)
      (pure target) := by
  funext src n ts
  change (readSubscripts src.stop target ts).map _ = _
  unfold readSubscripts
  split
  · rw [ifNext_cons]
    exact map_bind fun _ => map_bind fun _ => map_bind fun _ => rfl
  · next hne =>
    rw [ifNext_of_ne hne]
    rfl

/-- What stands in parentheses. -/
def grouped : Reader Expr :=
  (level .disjunction).bind fun e => (token (.symbol .closeParen)).bind fun _ => pure e

/-- What follows the name of a function or a variable. -/
def named (name : String) (pos : Pos) : Reader Expr :=
  ifNext (.symbol .openParen) ((items .closeParen).bind fun args =>
      match callNode name args with
      | .ok e => pure e
      | .error fault => blame fault ⟨.ident name, pos⟩)
    (pure (.var name))

theorem atom_eq : atom = branch fun
    | some ⟨.int n, _⟩ => skip (pure (.int n))
    | some ⟨.float x, _⟩ => skip (pure (.float x))
    | some ⟨.str s, _⟩ => skip (pure (.str s))
    | some ⟨.bool b, _⟩ => skip (pure (.bool b))
    | some ⟨.ident name, pos⟩ => skip (named name pos)
    | some ⟨.symbol .openParen, _⟩ => skip grouped
    | some ⟨.symbol .openSquare, _⟩ => skip ((items .closeSquare).bind fun es => pure (.list es))
    | _ => refuse (.unexpected .expression) := by
  funext src n ts
  change (readAtom src.stop ts).map _ = _
  rw [branch]
  unfold readAtom
  split
  · rfl
  · rfl
  · rfl
  · rfl
  · next name pos _ rest =>
    dsimp only [List.head?_cons, skip, List.tail_cons]
    rw [named, ifNext_cons]
    refine map_bind fun r => ?_
    dsimp only
    cases callNode name r.value with
    | ok e => rfl
    | error fault => rfl
  · next name pos rest hne =>
    dsimp only [List.head?_cons, skip, List.tail_cons]
    rw [named, ifNext_of_ne hne]
    rfl
  · exact map_bind fun _ => map_bind fun _ => rfl
  · exact map_bind fun _ => rfl
  · next hint hfloat hstr hbool _ hident hopen hsquare =>
    rcases ts with _ | ⟨⟨k, pos⟩, rest⟩
    · rfl
    cases k with
    | int n => exact absurd rfl (hint n pos rest)
    | float x => exact absurd rfl (hfloat x pos rest)
    | str s => exact absurd rfl (hstr s pos rest)
    | bool b => exact absurd rfl (hbool b pos rest)
    | ident name => exact absurd rfl (hident name pos rest)
    | symbol s =>
      cases s with
      | openParen => exact absurd rfl (hopen pos rest)
      | openSquare => exact absurd rfl (hsquare pos rest)
      | _ => rfl
    | _ => rfl

/-- No expression starts at the end of the input. -/
theorem readExpr_atEnd (stop : Token) {ts : List Token}
    (h : ts = [] ∨ ∃ pos later, ts = ⟨.eof, pos⟩ :: later) :
    readExpr stop ts = unexpected stop ts .expression := by
  have hatom : readAtom stop ts = unexpected stop ts .expression := by
    unfold readAtom
    rcases h with rfl | ⟨pos, later, rfl⟩ <;> rfl
  have hsigned : readSigned stop ts = unexpected stop ts .expression := by
    unfold readSigned
    rcases h with rfl | ⟨pos, later, rfl⟩ <;> dsimp only <;> rw [hatom] <;> rfl
  have hlevel : ∀ l, readOperand stop l ts = unexpected stop ts .expression →
      readLevel stop l ts = unexpected stop ts .expression := by
    intro l hl
    rw [readLevel, hl]
    rfl
  have hproduct := hlevel .product (by rw [readOperand, hsigned])
  have hsum := hlevel .sum (by rw [readOperand, hproduct])
  have hcomparison := hlevel .comparison (by rw [readOperand, hsum])
  have hnot : readNot stop ts = unexpected stop ts .expression := by
    unfold readNot
    rcases h with rfl | ⟨pos, later, rfl⟩ <;> exact hcomparison
  have hconjunction := hlevel .conjunction (by rw [readOperand, hnot])
  exact hlevel .disjunction (by rw [readOperand, hconjunction])

theorem level_eof (src : Source) (n : Nat) (pos : Pos) (later : List Token) :
    level .disjunction src n (⟨.eof, pos⟩ :: later) =
      refuse (.unexpected .expression) src n (⟨.eof, pos⟩ :: later) := by
  change (readExpr src.stop _).map _ = _
  rw [readExpr_atEnd _ (.inr ⟨pos, later, rfl⟩)]
  rfl

theorem items_eq (close : Symbol) : items close = ifNext (.symbol close) (pure [])
    ((level .disjunction).bind fun e =>
      ifNext (.symbol .comma) ((items close).bind fun es => pure (e :: es))
        ((token (.symbol close)).bind fun _ => pure [e])) := by
  funext src n ts
  change (readItems src.stop close ts).map _ = _
  unfold readItems
  split
  · rw [ifNext_of_ne (by rintro _ _ ⟨⟩)]
    change _ = Except.map _ (readExpr src.stop []) >>= _
    rw [readExpr_atEnd _ (.inl rfl)]
    rfl
  · next t rest =>
    split
    · next hk =>
      obtain ⟨k, pos⟩ := t
      subst hk
      rw [ifNext_cons]
      rfl
    · next hk =>
      rw [ifNext_of_ne (by rintro _ _ ⟨⟩; exact hk rfl)]
      refine map_bind ?_
      rintro ⟨e, r₁, h⟩
      dsimp only
      split
      · rw [ifNext_cons]
        exact map_bind fun _ => rfl
      · next hne =>
        rw [ifNext_of_ne (by rintro pos r₂ rfl; exact hne pos r₂ h rfl HEq.rfl)]
        exact map_bind fun _ => rfl

theorem operand_eq (l : Level) : operand l =
    match l with
    | .disjunction => level .conjunction
    | .conjunction => negation
    | .comparison => level .sum
    | .sum => level .product
    | .product => signed := by
  funext src n ts
  change (readOperand src.stop l ts).map _ = _
  cases l <;> rw [readOperand] <;> rfl

theorem made_token {kind : Kind} (hkind : kind ≠ .eof) : Made .used before (token kind) ts := by
  rw [token_eq]
  exact made_ifNext hkind (fun _ _ => .pure) .refuse

theorem made_name : Made .used before name ts := by
  rw [name_eq]
  refine .branch (fun _ _ _ _ => rfl) ?_
  split
  · next hhead => exact .skip hhead (by simp) fun _ _ => .pure
  · exact .refuse

theorem isNext_of_callNode {name : String} {args : List Expr} {fault : ParseFault}
    (h : callNode name args = .error fault) : fault.isNext = false := by
  unfold callNode at h
  grind [ParseFault.isNext]

mutual

theorem made_level (before : List Token) (l : Level) (ts : List Token) :
    Made .used before (level l) ts := by
  rw [level_eq]
  refine (made_operand before l ts).bind fun hleft _ _ => ?_
  have hlt := shorter_of_plain hleft
  exact (made_levelTail _ l _ _).bind fun _ _ _ => .pure
termination_by 32 * ts.length + (2 * l.rank + 1)

theorem made_levelTail (before : List Token) (l : Level) (left : Expr) (ts : List Token) :
    Made .used before (levelTail l left) ts := by
  rw [levelTail_eq]
  refine .branch (fun _ _ _ _ => by rw [Option.bind_some, l.operator?_eof, Option.bind_none]) ?_
  split
  · exact .pure
  · next op hop =>
    obtain ⟨t, ht, hop⟩ := Option.bind_eq_some_iff.mp hop
    have hkind : t.kind ≠ .eof := by
      intro hkind
      rw [hkind, l.operator?_eof] at hop
      cases hop
    refine .skip ht hkind fun rest hts => (made_operand _ l rest).bind fun hright _ _ => ?_
    have hlt := shorter_of_plain hright
    exact (made_levelTail _ l _ _).bind fun _ _ _ => .pure
termination_by 32 * ts.length
decreasing_by
  · have := l.rank_le
    subst_vars
    simp only [List.length_cons]
    omega
  · subst_vars
    simp only [List.length_cons]
    omega

theorem made_operand (before : List Token) (l : Level) (ts : List Token) :
    Made .used before (operand l) ts := by
  rw [operand_eq]
  cases l with
  | disjunction => exact made_level before .conjunction ts
  | conjunction => exact made_negation before ts
  | comparison => exact made_level before .sum ts
  | sum => exact made_level before .product ts
  | product => exact made_signed before ts
termination_by 32 * ts.length + 2 * l.rank
decreasing_by all_goals subst_vars; simp only [Level.rank]; omega

theorem made_negation (before ts : List Token) : Made .used before negation ts := by
  rw [negation_eq]
  refine made_ifNext (Kind.keyword_ne_eof _) (fun rest hts => ?_) (made_level before .comparison ts)
  exact (made_negation _ _).bind fun _ _ _ => .pure
termination_by 32 * ts.length + 12
decreasing_by
  · subst_vars
    simp only [List.length_cons]
    omega
  · simp only [Level.rank]
    omega

theorem made_signed (before ts : List Token) : Made .used before signed ts := by
  rw [signed_eq]
  refine made_ifNext (Kind.symbol_ne_eof _) (fun rest hts => ?_)
    (made_ifNext (Kind.symbol_ne_eof _) (fun rest hts => ?_) ?_)
  · exact (made_signed _ _).bind fun _ _ _ => .pure
  · exact (made_signed _ _).bind fun _ _ _ => .pure
  · refine (made_atom _ ts).bind fun hatom _ _ => ?_
    have hlt := shorter_of_plain hatom
    exact (made_subscripts _ _ _).bind fun _ _ _ => .pure
termination_by 32 * ts.length + 5

theorem made_subscripts (before : List Token) (target : Expr) (ts : List Token) :
    Made .used before (subscripts target) ts := by
  rw [subscripts_eq]
  refine made_ifNext (Kind.symbol_ne_eof _) (fun rest hts => ?_) .pure
  refine (made_level _ .disjunction _).bind fun hi _ _ => ?_
  have hlt := shorter_of_plain hi
  refine (made_token (Kind.symbol_ne_eof _)).bind fun hclose _ _ => ?_
  have hlt' := shorter_of_plain hclose
  exact (made_subscripts _ _ _).bind fun _ _ _ => .pure
termination_by 32 * ts.length

theorem made_atom (before ts : List Token) : Made .used before atom ts := by
  rw [atom_eq]
  refine .branch (fun _ _ _ _ => rfl) ?_
  split
  · next hhead => exact .skip hhead (by simp) fun _ _ => .pure
  · next hhead => exact .skip hhead (by simp) fun _ _ => .pure
  · next hhead => exact .skip hhead (by simp) fun _ _ => .pure
  · next hhead => exact .skip hhead (by simp) fun _ _ => .pure
  · next name pos hhead =>
    refine .skip hhead (by simp) fun rest hts => made_ifNext (Kind.symbol_ne_eof _)
      (fun _ hrest => ?_) .pure
    refine (made_items _ .closeParen _).bind fun _ _ _ => ?_
    split
    · exact .pure
    · next hfault => exact .blame (by simp) (isNext_of_callNode hfault)
  · next hhead =>
    refine .skip hhead (by simp) fun rest hts =>
      (made_level _ .disjunction rest).bind fun _ _ _ => ?_
    exact (made_token (Kind.symbol_ne_eof _)).bind fun _ _ _ => .pure
  · next hhead =>
    exact .skip hhead (by simp) fun rest hts =>
      (made_items _ .closeSquare rest).bind fun _ _ _ => .pure
  · exact .refuse
termination_by 32 * ts.length + 4

theorem made_items (before : List Token) (close : Symbol) (ts : List Token) :
    Made .used before (items close) ts := by
  rw [items_eq]
  refine made_ifNext (Kind.symbol_ne_eof _) (fun _ _ => .pure) ?_
  refine (made_level _ .disjunction _).bind fun he _ _ => ?_
  have hlt := shorter_of_plain he
  refine made_ifNext (Kind.symbol_ne_eof _) (fun rest hts => ?_) ?_
  · exact (made_items _ close _).bind fun _ _ _ => .pure
  · exact (made_token (Kind.symbol_ne_eof _)).bind fun _ _ _ => .pure
termination_by 32 * ts.length + 20

end

end Reader
end Braces
