import Braces.Cpp.Tree

/-!
# The grammar of target expressions

Lexemes, the trees that they are read as, and the grammar that ties them: binary operators in six
levels, each of them left-associative, then prefix operators, then calls and members. The grammar is
stated by its rules alone. That a list of lexemes is read in one way at most is shown with a reader
that follows the rules from left to right.
-/

namespace Braces.Cpp

inductive Lexeme where
  | word (s : String)
  | number (s : String)
  | text (s : String)
  | openParen | closeParen | openBrace | closeBrace | comma | dot
  | op (s : String)
  deriving DecidableEq, Repr

inductive Tree where
  | atom (l : Lexeme)
  | binary (op : String) (left right : Tree)
  | prefixed (op : String) (operand : Tree)
  | call (callee : Tree) (args : List Tree)
  | member (object : Tree) (name : String)
  | cast (ty : Ty) (operand : Tree)
  | vector (elements : List Tree)
  deriving Repr, Inhabited

/-- The level of a binary operator. A higher one binds tighter. -/
def level? (op : String) : Option Nat :=
  if op = "||" then some 1
  else if op = "&&" then some 2
  else if op ∈ ["==", "!="] then some 3
  else if op ∈ ["<", "<=", ">", ">="] then some 4
  else if op ∈ ["+", "-"] then some 5
  else if op ∈ ["*", "/", "%"] then some 6
  else none

def prefixOps : List String := ["+", "-", "!"]

/-- Whether a lexeme is an operand by itself: a literal, or a word that is no keyword and does not
start a type. -/
def Lexeme.isOperand : Lexeme → Bool
  | .word w => (w ∉ keywords || w = "true" || w = "false") && w ≠ "vector"
  | .number _ | .text _ => true
  | _ => false

/-- The lexemes before the operand of a conversion to a number. -/
def castHead (ty : Ty) : List Lexeme :=
  .word "static_cast" :: .op "<" ::
    ((if ty = .float then [.word "double"] else [.word "long", .word "long"]) ++
      [.op ">", .openParen])

/-- The lexemes before the elements of a list. -/
def vectorHead : List Lexeme :=
  [.word "vector", .op "<", .word "long", .word "long", .op ">", .openBrace]

mutual

/-- How lexemes are read, at levels from one for expressions to eight for operands. -/
inductive Derives : Nat → List Lexeme → Tree → Prop
  | climb {k ts e} : k < 8 → Derives (k + 1) ts e → Derives k ts e
  | binary {k op ls rs l r} : level? op = some k → Derives k ls l → Derives (k + 1) rs r →
      Derives k (ls ++ .op op :: rs) (.binary op l r)
  | prefixed {op ts e} : op ∈ prefixOps → Derives 7 ts e →
      Derives 7 (.op op :: ts) (.prefixed op e)
  | call {fs ts f es} : Derives 8 fs f → Listed ts es →
      Derives 8 (fs ++ .openParen :: (ts ++ [.closeParen])) (.call f es)
  | member {ts e name} : Derives 8 ts e → Derives 8 (ts ++ [.dot, .word name]) (.member e name)
  | atom {l} : l.isOperand = true → Derives 8 [l] (.atom l)
  | group {ts e} : Derives 1 ts e → Derives 8 (.openParen :: (ts ++ [.closeParen])) e
  | cast {ty ts e} : ty = .int ∨ ty = .float → Derives 1 ts e →
      Derives 8 (castHead ty ++ (ts ++ [.closeParen])) (.cast ty e)
  | vector {ts es} : Listed ts es → Derives 8 (vectorHead ++ (ts ++ [.closeBrace])) (.vector es)

/-- Expressions with commas between them. -/
inductive Listed : List Lexeme → List Tree → Prop
  | none : Listed [] []
  | one {ts e} : Derives 1 ts e → Listed ts [e]
  | more {ts us e e' es} : Derives 1 ts e → Listed us (e' :: es) →
      Listed (ts ++ .comma :: us) (e :: e' :: es)

end

/-! ## A reader -/

/-- What follows some lexemes. -/
def after? (head ts : List Lexeme) : Option (List Lexeme) :=
  if head.isPrefixOf ts then some (ts.drop head.length) else none

/-- Reads one lexeme of a kind. -/
def closing (close : Lexeme) (ts : List Lexeme) : Option (List Lexeme) :=
  match ts with
  | [] => none
  | t :: rest => if t = close then some rest else none

mutual

def readLevel : Nat → Nat → List Lexeme → Option (Tree × List Lexeme)
  | 0, _, _ => none
  | n + 1, k, ts =>
    if k < 7 then (readLevel n (k + 1) ts).bind fun r => readTail n k r.1 r.2
    else readPrefixed n ts

/-- Operators of one level after their first operand. -/
def readTail : Nat → Nat → Tree → List Lexeme → Option (Tree × List Lexeme)
  | 0, _, _, _ => none
  | n + 1, k, l, ts =>
    match ts with
    | .op op :: rest =>
      if level? op = some k then
        (readLevel n (k + 1) rest).bind fun r => readTail n k (.binary op l r.1) r.2
      else some (l, .op op :: rest)
    | ts => some (l, ts)

def readPrefixed : Nat → List Lexeme → Option (Tree × List Lexeme)
  | 0, _ => none
  | n + 1, ts =>
    match ts with
    | .op op :: rest =>
      if op ∈ prefixOps then (readPrefixed n rest).map fun r => (.prefixed op r.1, r.2) else none
    | ts => (readPrimary n ts).bind fun r => readSuffixes n r.1 r.2

/-- Calls and members after an operand. -/
def readSuffixes : Nat → Tree → List Lexeme → Option (Tree × List Lexeme)
  | 0, _, _ => none
  | n + 1, e, ts =>
    match ts with
    | .openParen :: rest =>
      (readItems n .closeParen rest).bind fun r => readSuffixes n (.call e r.1) r.2
    | .dot :: .word name :: rest => readSuffixes n (.member e name) rest
    | ts => some (e, ts)

def readPrimary : Nat → List Lexeme → Option (Tree × List Lexeme)
  | 0, _ => none
  | n + 1, ts =>
    match after? [.openParen] ts, after? (castHead .int) ts, after? (castHead .float) ts,
      after? vectorHead ts with
    | some rest, _, _, _ =>
      (readLevel n 1 rest).bind fun r => (closing .closeParen r.2).map fun us => (r.1, us)
    | none, some rest, _, _ =>
      (readLevel n 1 rest).bind fun r => (closing .closeParen r.2).map fun us =>
        (.cast .int r.1, us)
    | none, none, some rest, _ =>
      (readLevel n 1 rest).bind fun r => (closing .closeParen r.2).map fun us =>
        (.cast .float r.1, us)
    | none, none, none, some rest =>
      (readItems n .closeBrace rest).map fun r => (.vector r.1, r.2)
    | none, none, none, none =>
      match ts with
      | l :: rest => if l.isOperand then some (.atom l, rest) else none
      | [] => none

/-- Expressions with commas between them, up to a closing lexeme. -/
def readItems : Nat → Lexeme → List Lexeme → Option (List Tree × List Lexeme)
  | 0, _, _ => none
  | n + 1, close, ts =>
    match closing close ts with
    | some rest => some ([], rest)
    | none => (readLevel n 1 ts).bind fun r => readMore n close r.1 r.2

/-- What stands after the first of some expressions. -/
def readMore : Nat → Lexeme → Tree → List Lexeme → Option (List Tree × List Lexeme)
  | 0, _, _, _ => none
  | n + 1, close, e, ts =>
    match closing .comma ts with
    | some rest =>
      (readItems n close rest).bind fun r => if r.1.isEmpty then none else some (e :: r.1, r.2)
    | none => (closing close ts).map fun rest => ([e], rest)

end

/-! ## The reader follows the grammar -/

section Ends
variable {α β : Type} {f : Nat → Option α} {g : Nat → Option β} {a a' : α} {b : β}

/-- A computation gives a result once it may take enough steps. -/
def Ends (f : Nat → Option α) (a : α) : Prop := ∃ N, ∀ n, N ≤ n → f n = some a

theorem Ends.unique (h : Ends f a) (h' : Ends f a') : a = a' := by
  obtain ⟨N, hN⟩ := h
  obtain ⟨M, hM⟩ := h'
  have heq := (hN (N + M) (Nat.le_add_right N M)).symm.trans (hM (N + M) (Nat.le_add_left M N))
  exact Option.some.inj heq

theorem Ends.at_once (h : ∀ n, f (n + 1) = some a) : Ends f a := by
  refine ⟨1, fun n hn => ?_⟩
  obtain ⟨m, rfl⟩ := Nat.exists_eq_add_of_le' hn
  exact h m

theorem Ends.bind {k : Nat → α → Option β} (hf : Ends f a) (hk : Ends (k · a) b)
    (hg : ∀ n, g (n + 1) = (f n).bind (k n)) : Ends g b := by
  obtain ⟨N, hN⟩ := hf
  obtain ⟨M, hM⟩ := hk
  refine ⟨N + M + 1, fun n hn => ?_⟩
  obtain ⟨m, rfl⟩ := Nat.exists_eq_add_of_le' (Nat.le_trans (Nat.le_add_left 1 (N + M)) hn)
  rw [hg, hN m (by omega)]
  exact hM m (by omega)

theorem Ends.map {k : α → β} (hf : Ends f a) (hg : ∀ n, g (n + 1) = (f n).map k) :
    Ends g (k a) := by
  refine hf.bind (k := fun _ x => some (k x)) ⟨0, fun _ _ => rfl⟩ fun n => ?_
  rw [hg, Option.map_eq_bind]
  rfl

theorem Ends.same {g : Nat → Option α} (hf : Ends f a) (hg : ∀ n, g (n + 1) = f n) : Ends g a :=
  hf.map (k := id) fun n => by rw [hg, Option.map_id, id]

end Ends

/-- Whether the next lexeme goes on with an expression of level `k`. -/
def Continues (k : Nat) : List Lexeme → Prop
  | .openParen :: _ | .dot :: _ => True
  | .op op :: _ => ∃ j, level? op = some j ∧ k ≤ j
  | _ => False

/-- Whether an expression can start with a lexeme. -/
def Lexeme.starts : Lexeme → Bool
  | .closeParen | .openBrace | .closeBrace | .comma | .dot => false
  | _ => true

theorem Derives.starts : ∀ {k : Nat} {ts : List Lexeme} {e : Tree}, Derives k ts e →
    ∃ t rest, ts = t :: rest ∧ t.starts = true
  | _, _, _, .climb _ h => h.starts
  | _, _, _, .binary _ hl _ => by
    obtain ⟨t, rest, rfl, ht⟩ := hl.starts
    exact ⟨t, _, rfl, ht⟩
  | _, _, _, .prefixed _ _ => ⟨_, _, rfl, rfl⟩
  | _, _, _, .call hf _ => by
    obtain ⟨t, rest, rfl, ht⟩ := hf.starts
    exact ⟨t, _, rfl, ht⟩
  | _, _, _, .member h => by
    obtain ⟨t, rest, rfl, ht⟩ := h.starts
    exact ⟨t, _, rfl, ht⟩
  | _, _, _, @Derives.atom l hl => by
    refine ⟨l, [], rfl, ?_⟩
    cases l <;> first | rfl | cases hl
  | _, _, _, .group _ => ⟨_, _, rfl, rfl⟩
  | _, _, _, .cast _ _ => ⟨_, _, rfl, rfl⟩
  | _, _, _, .vector _ => ⟨_, _, rfl, rfl⟩

/-- What the reader does with lexemes that are read as `e` at level `k`, whatever follows them. -/
def Follows (k : Nat) (ts : List Lexeme) (e : Tree) : Prop :=
  if k < 7 then
    ∀ rest out, ¬ Continues (k + 1) rest → Ends (readTail · k e rest) out →
      Ends (readLevel · k (ts ++ rest)) out
  else if k = 7 then
    ∀ rest, ¬ Continues 7 rest → Ends (readPrefixed · (ts ++ rest)) (e, rest)
  else ∀ rest out, Ends (readSuffixes · e rest) out → Ends (readPrefixed · (ts ++ rest)) out

theorem ends_readTail {k : Nat} {e : Tree} {rest : List Lexeme}
    (h : ∀ op us, rest = .op op :: us → level? op ≠ some k) :
    Ends (readTail · k e rest) (e, rest) := by
  refine .at_once fun n => ?_
  unfold readTail
  split
  · next op us => rw [if_neg (h op us rfl)]
  · rfl

theorem ends_readSuffixes {k : Nat} {e : Tree} {rest : List Lexeme} (h : ¬ Continues k rest) :
    Ends (readSuffixes · e rest) (e, rest) := by
  refine .at_once fun n => ?_
  unfold readSuffixes
  split
  · exact absurd trivial h
  · exact absurd trivial h
  · rfl

theorem level?_le {op : String} {k : Nat} (h : level? op = some k) : k ≤ 6 := by
  unfold level? at h
  split at h <;> grind

theorem Continues.mono {j k : Nat} {ts : List Lexeme} (h : Continues k ts) (hle : j ≤ k) :
    Continues j ts := by
  unfold Continues at h ⊢
  split at h
  · trivial
  · trivial
  · obtain ⟨i, hi, hki⟩ := h
    exact ⟨i, hi, by omega⟩
  · exact h

theorem not_continues_closing {k : Nat} {t : Lexeme} {rest : List Lexeme}
    (ht : t = .closeParen ∨ t = .closeBrace ∨ t = .comma) : ¬ Continues k (t :: rest) := by
  obtain rfl | rfl | rfl := ht <;> exact id

/-- Lexemes that are read at a level, up to something that does not go on with them. -/
theorem Follows.ends {k : Nat} {ts rest : List Lexeme} {e : Tree} (h : Follows k ts e)
    (hk : k ≤ 7) (hrest : ¬ Continues k rest) : Ends (readLevel · k (ts ++ rest)) (e, rest) := by
  obtain hlt | rfl := Nat.lt_or_eq_of_le hk
  · rw [Follows, if_pos hlt] at h
    refine h rest _ (fun hc => hrest (hc.mono (by omega))) (ends_readTail ?_)
    rintro op us rfl hlevel
    exact hrest ⟨k, hlevel, k.le_refl⟩
  · rw [Follows, if_neg (by omega), if_pos rfl] at h
    exact (h rest hrest).same fun n => by simp [readLevel]

theorem Follows.climb {k : Nat} {ts : List Lexeme} {e : Tree} (hk : k < 8)
    (h : Follows (k + 1) ts e) : Follows k ts e := by
  obtain hlt | rfl : k < 7 ∨ k = 7 := by omega
  · rw [Follows, if_pos hlt]
    intro rest out hrest htail
    exact (h.ends (by omega) hrest).bind htail fun n => by rw [readLevel, if_pos hlt]
  · rw [Follows, if_neg (by omega), if_neg (by omega)] at h
    rw [Follows, if_neg (by omega), if_pos rfl]
    intro rest hrest
    exact h rest _ (ends_readSuffixes hrest)

theorem Follows.binary {k : Nat} {op : String} {ls rs : List Lexeme} {l r : Tree}
    (hop : level? op = some k) (hl : Follows k ls l) (hr : Follows (k + 1) rs r) :
    Follows k (ls ++ .op op :: rs) (.binary op l r) := by
  have hk := level?_le hop
  rw [Follows, if_pos (by omega)] at hl ⊢
  intro rest out hrest htail
  rw [List.append_assoc, List.cons_append]
  apply hl
  · rintro ⟨j, hj, hle⟩
    rw [hop, Option.some.injEq] at hj
    omega
  · exact (hr.ends (by omega) hrest).bind htail fun n => by rw [readTail, if_pos hop]

theorem Follows.prefixed {op : String} {ts : List Lexeme} {e : Tree} (hop : op ∈ prefixOps)
    (h : Follows 7 ts e) : Follows 7 (.op op :: ts) (.prefixed op e) := by
  rw [Follows, if_neg (by omega), if_pos rfl] at h ⊢
  intro rest hrest
  refine (h rest hrest).map (k := fun r => (Tree.prefixed op r.1, r.2)) fun n => ?_
  rw [List.cons_append, readPrefixed, if_pos hop]

/-- At the last level, what follows an operand is read as part of it. -/
theorem follows_eight {ts : List Lexeme} {e : Tree} : Follows 8 ts e ↔
    ∀ rest out, Ends (readSuffixes · e rest) out → Ends (readPrefixed · (ts ++ rest)) out := by
  rw [Follows, if_neg (by omega), if_neg (by omega)]

theorem follows_eight_of_primary {ts : List Lexeme} {e : Tree}
    (hop : ∀ op us, ts ≠ .op op :: us) (hts : ts ≠ [])
    (h : ∀ rest, Ends (readPrimary · (ts ++ rest)) (e, rest)) : Follows 8 ts e := by
  rw [follows_eight]
  intro rest out hout
  refine (h rest).bind (k := fun n r => readSuffixes n r.1 r.2) hout fun n => ?_
  obtain _ | ⟨t, ts⟩ := ts
  · exact absurd rfl hts
  · cases t with
    | op op => exact absurd rfl (hop op ts)
    | _ => rfl

theorem Follows.member {ts : List Lexeme} {e : Tree} {name : String} (h : Follows 8 ts e) :
    Follows 8 (ts ++ [.dot, .word name]) (.member e name) := by
  rw [follows_eight] at h ⊢
  intro rest out hout
  rw [List.append_assoc]
  exact h _ _ (hout.same fun n => rfl)

/-- What the reader does with expressions between commas, up to a closing lexeme. -/
def FollowsAll (ts : List Lexeme) (es : List Tree) : Prop :=
  ∀ close rest, close = .closeParen ∨ close = .closeBrace →
    Ends (readItems · close (ts ++ close :: rest)) (es, rest)

theorem Follows.call {fs ts : List Lexeme} {f : Tree} {es : List Tree} (hf : Follows 8 fs f)
    (hes : FollowsAll ts es) :
    Follows 8 (fs ++ .openParen :: (ts ++ [.closeParen])) (.call f es) := by
  rw [follows_eight] at hf ⊢
  intro rest out hout
  have hitems := hes .closeParen rest (.inl rfl)
  rw [List.append_assoc, List.cons_append, List.append_assoc]
  exact hf _ _ (hitems.bind (k := fun n r => readSuffixes n (.call f r.1) r.2) hout fun n => rfl)

theorem closing_self (t : Lexeme) (rest : List Lexeme) : closing t (t :: rest) = some rest :=
  if_pos rfl

theorem closing_of_starts {t close : Lexeme} (ht : t.starts = true) (hc : close.starts = false)
    (rest : List Lexeme) : closing close (t :: rest) = none := by
  refine if_neg ?_
  rintro rfl
  rw [ht] at hc
  cases hc

theorem Follows.atom {l : Lexeme} (hl : l.isOperand = true) : Follows 8 [l] (.atom l) := by
  refine follows_eight_of_primary ?_ (List.cons_ne_nil l []) fun rest => .at_once fun n => ?_
  · rintro op us heq
    cases heq
    cases hl
  · have hcast : l ≠ .word "static_cast" := by rintro rfl; revert hl; decide
    have hvector : l ≠ .word "vector" := by rintro rfl; revert hl; decide
    have hparen : l ≠ .openParen := by rintro rfl; cases hl
    simp [readPrimary, after?, castHead, vectorHead, hcast.symm, hvector.symm, hparen.symm, hl]

/-- The reader takes one expression and the parenthesis after it. -/
theorem Follows.closed {ts : List Lexeme} {e : Tree} (h : Follows 1 ts e) (wrap : Tree → Tree)
    (rest : List Lexeme) {g : Nat → Option (Tree × List Lexeme)}
    (hg : ∀ n, g (n + 1) = (readLevel n 1 (ts ++ .closeParen :: rest)).bind fun r =>
      (closing .closeParen r.2).map fun us => (wrap r.1, us)) : Ends g (wrap e, rest) := by
  refine (h.ends (by omega) (not_continues_closing (.inl rfl))).bind
    (k := fun _ r => (closing .closeParen r.2).map fun us => (wrap r.1, us)) ⟨0, fun n _ => ?_⟩ hg
  rw [closing_self]
  rfl

theorem Follows.group {ts : List Lexeme} {e : Tree} (h : Follows 1 ts e) :
    Follows 8 (.openParen :: (ts ++ [.closeParen])) e := by
  refine follows_eight_of_primary (fun _ _ => by simp) (List.cons_ne_nil _ _) fun rest => ?_
  refine h.closed id rest fun n => ?_
  simp [readPrimary, after?]

theorem Follows.cast {ty : Ty} {ts : List Lexeme} {e : Tree} (hty : ty = .int ∨ ty = .float)
    (h : Follows 1 ts e) : Follows 8 (castHead ty ++ (ts ++ [.closeParen])) (.cast ty e) := by
  refine follows_eight_of_primary (fun _ _ => by simp [castHead]) (by simp [castHead])
    fun rest => ?_
  refine h.closed (.cast ty) rest fun n => ?_
  obtain rfl | rfl := hty <;> simp [readPrimary, after?, castHead]

theorem Follows.vector {ts : List Lexeme} {es : List Tree} (h : FollowsAll ts es) :
    Follows 8 (vectorHead ++ (ts ++ [.closeBrace])) (.vector es) := by
  refine follows_eight_of_primary (fun _ _ => by simp [vectorHead]) (by simp [vectorHead])
    fun rest => ?_
  refine (h .closeBrace rest (.inr rfl)).map (k := fun r => (Tree.vector r.1, r.2)) fun n => ?_
  simp [readPrimary, after?, castHead, vectorHead]

theorem FollowsAll.none : FollowsAll [] [] := by
  intro close rest _
  refine .at_once fun n => ?_
  rw [List.nil_append, readItems, closing_self]

theorem Follows.item {ts rest us : List Lexeme} {e : Tree} {es : List Tree} {close : Lexeme}
    (h : Follows 1 ts e) (hts : ∃ t rest, ts = t :: rest ∧ t.starts = true)
    (hclose : close.starts = false) (hrest : ¬ Continues 1 rest)
    (hmore : Ends (readMore · close e rest) (es, us)) :
    Ends (readItems · close (ts ++ rest)) (es, us) := by
  obtain ⟨t, vs, rfl, ht⟩ := hts
  refine (h.ends (by omega) hrest).bind (k := fun n r => readMore n close r.1 r.2) hmore fun n => ?_
  rw [List.cons_append, readItems, closing_of_starts ht hclose]

theorem FollowsAll.one {ts : List Lexeme} {e : Tree} (h : Follows 1 ts e)
    (hts : ∃ t rest, ts = t :: rest ∧ t.starts = true) : FollowsAll ts [e] := by
  intro close rest hclose
  have hstops : ¬ Continues 1 (close :: rest) := not_continues_closing (by grind)
  have hcomma : closing .comma (close :: rest) = Option.none := by
    obtain rfl | rfl := hclose <;> rfl
  refine h.item hts (by obtain rfl | rfl := hclose <;> rfl) hstops (.at_once fun n => ?_)
  rw [readMore, hcomma, closing_self]
  rfl

theorem FollowsAll.more {ts us : List Lexeme} {e e' : Tree} {es : List Tree} (h : Follows 1 ts e)
    (hts : ∃ t rest, ts = t :: rest ∧ t.starts = true) (hes : FollowsAll us (e' :: es)) :
    FollowsAll (ts ++ .comma :: us) (e :: e' :: es) := by
  intro close rest hclose
  rw [List.append_assoc]
  refine h.item hts (by obtain rfl | rfl := hclose <;> rfl)
    (not_continues_closing (.inr (.inr rfl))) ?_
  refine (hes close rest hclose).bind
    (k := fun _ r => if r.1.isEmpty then .none else some (e :: r.1, r.2)) ⟨0, fun n _ => rfl⟩
    fun n => ?_
  rw [List.cons_append, readMore, closing_self]

mutual

theorem Derives.follows : ∀ {k : Nat} {ts : List Lexeme} {e : Tree}, Derives k ts e → Follows k ts e
  | _, _, _, .climb hk h => h.follows.climb hk
  | _, _, _, .binary hop hl hr => hl.follows.binary hop hr.follows
  | _, _, _, .prefixed hop h => h.follows.prefixed hop
  | _, _, _, .call hf hes => hf.follows.call hes.follows
  | _, _, _, .member h => h.follows.member
  | _, _, _, .atom hl => .atom hl
  | _, _, _, .group h => h.follows.group
  | _, _, _, .cast hty h => h.follows.cast hty
  | _, _, _, .vector h => .vector h.follows

theorem Listed.follows : ∀ {ts : List Lexeme} {es : List Tree}, Listed ts es → FollowsAll ts es
  | _, _, .none => .none
  | _, _, .one h => .one h.follows h.starts
  | _, _, .more h hes => .more h.follows h.starts hes.follows

end

/-- Lexemes are read as one expression at most. -/
theorem Derives.unique {ts : List Lexeme} {e e' : Tree} (h : Derives 1 ts e)
    (h' : Derives 1 ts e') : e = e' := by
  have hread : Ends (readLevel · 1 (ts ++ [])) (e, []) := h.follows.ends (by omega) id
  have hread' : Ends (readLevel · 1 (ts ++ [])) (e', []) := h'.follows.ends (by omega) id
  exact congrArg Prod.fst (hread.unique hread')

end Braces.Cpp
