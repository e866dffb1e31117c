import Braces.Proofs.Lookahead

/-!
# Readers move on

The parser stands at an index of its tokens, the last of which ends the input. A reader that
succeeds moves on to a later index, and one that fails stands where it failed; in neither case has a
token been passed that ends the input. So what follows the first such token makes no difference, and
a program is read up to there.
-/

namespace Braces

/-- Tokens that are left after some others, none of which ends the input. -/
def UsedUpTo (ts left : List Token) : Prop := ∃ used, ts = used ++ left ∧ ∀ t ∈ used, t.kind ≠ .eof

theorem UsedUpTo.refl (ts : List Token) : UsedUpTo ts ts := ⟨[], rfl, List.forall_mem_nil _⟩

theorem UsedUpTo.cons {t : Token} {ts left : List Token} (hkind : t.kind ≠ .eof)
    (h : UsedUpTo ts left) :
    UsedUpTo (t :: ts) left := by
  obtain ⟨used, rfl, hused⟩ := h
  exact ⟨t :: used, rfl, List.forall_mem_cons.mpr ⟨hkind, hused⟩⟩

theorem UsedUpTo.trans {ts mid left : List Token} (h : UsedUpTo ts mid) (h' : UsedUpTo mid left) :
    UsedUpTo ts left := by
  obtain ⟨used, rfl, hused⟩ := h
  obtain ⟨used', rfl, hused'⟩ := h'
  exact ⟨used ++ used', (List.append_assoc _ _ _).symm, List.forall_mem_append.mpr ⟨hused, hused'⟩⟩

namespace Reader

variable {α β : Type} {before ts : List Token} {basis : Basis} {p : Reader α} {k : α → Reader β}

/-- The tokens that are not used up, whether a reader succeeds or fails. -/
def unread : Except ParseError (α × Nat × List Token) → List Token
  | .ok (_, _, rest) => rest
  | .error e => e.unread

theorem usedUpTo_bind {src : Source} {n : Nat} (h : UsedUpTo ts (unread (p src n ts)))
    (hk : ∀ {value m rest}, p src n ts = .ok (value, m, rest) →
      ∀ {used}, ts = used ++ rest → UsedUpTo rest (unread (k value src m rest))) :
    UsedUpTo ts (unread (p.bind k src n ts)) := by
  rw [bind]
  cases hp : p src n ts with
  | error e =>
    rw [hp] at h
    exact h
  | ok r =>
    obtain ⟨value, m, rest⟩ := r
    rw [hp] at h
    obtain ⟨used, hts, hkinds⟩ := h
    exact .trans ⟨used, hts, hkinds⟩ (hk hp hts)

/-- No token that ends the input is used up. -/
theorem Made.usedUpTo (h : Made basis before p ts) (src : Source) (n : Nat) :
    UsedUpTo ts (unread (p src n ts)) := by
  induction h generalizing src n with
  | pure | refuse | blame => exact .refl _
  | @settle _ _ ts outcome t =>
    rw [Reader.settle]
    cases outcome src.taken n <;> exact .refl ts
  | skip ht hkind h ih =>
    obtain ⟨rest, rfl⟩ := List.head?_eq_some_iff.mp ht
    exact .cons hkind (ih rest rfl src n)
  | bind h hk ih ihk => exact usedUpTo_bind (ih src n) fun hp _ hused => ihk hp hused _ _
  | both h hq ih ihq =>
    refine usedUpTo_bind (ih src n) fun hp _ hused => ?_
    exact usedUpTo_bind (ihq hp hused _ _) fun _ _ _ => .refl _
  | branch heof h ih => exact ih src n

/-- What is given if more tokens follow that are not used up. -/
def followed (later : List Token) :
    Except ParseError (α × Nat × List Token) → Except ParseError (α × Nat × List Token)
  | .ok (value, m, rest) => .ok (value, m, rest ++ later)
  | .error e => .error { e with unread := e.unread ++ later }

theorem followed_nil (x : Except ParseError (α × Nat × List Token)) : followed [] x = x := by
  cases x with
  | error e => rw [followed, List.append_nil]
  | ok r => rw [followed, List.append_nil]

theorem followed_bind {src src' : Source} {n : Nat} {later : List Token}
    (hused : UsedUpTo ts (unread (p src' n ts)))
    (h : p src n (ts ++ later) = followed later (p src' n ts))
    (hk : ∀ {value m rest}, p src' n ts = .ok (value, m, rest) →
      ∀ {used}, ts = used ++ rest →
        k value src m (rest ++ later) = followed later (k value src' m rest)) :
    p.bind k src n (ts ++ later) = followed later (p.bind k src' n ts) := by
  rw [bind, bind, h]
  cases hp : p src' n ts with
  | error e => rfl
  | ok r =>
    rw [hp] at hused
    obtain ⟨used, hts, -⟩ := hused
    exact hk hp hts

/-- A token that ends the input does so wherever it stands. -/
theorem Made.append_eof (h : Made basis before p ts) (src : Source) (n : Nat) (pos : Pos)
    (later : List Token) :
    p src n (ts ++ ⟨.eof, pos⟩ :: later) =
      followed (⟨.eof, pos⟩ :: later) (p { src with stop := ⟨.eof, pos⟩ } n ts) := by
  induction h generalizing src n with
  | pure | blame => rfl
  | @refuse _ _ _ ts => cases ts <;> rfl
  | @settle _ _ ts outcome t =>
    rw [Reader.settle, Reader.settle]
    cases outcome src.taken n <;> rfl
  | skip ht hkind h ih =>
    obtain ⟨rest, rfl⟩ := List.head?_eq_some_iff.mp ht
    exact ih rest rfl src n
  | bind h hk ih ihk =>
    exact followed_bind (h.usedUpTo _ n) (ih src n) fun hp _ hused => ihk hp hused src _
  | both h hq ih ihq =>
    refine followed_bind (h.usedUpTo _ n) (ih src n) fun hp _ hused => ?_
    exact followed_bind ((hq hp hused).usedUpTo _ _) (ihq hp hused src _) fun _ _ _ => rfl
  | @branch _ _ _ ts b heof h ih =>
    cases ts with
    | nil =>
      -- The token is next, and the choice for it is the one that is made at the end of the list.
      exact (heof pos later src n).trans (ih src n)
    | cons t rest => exact ih src n

end Reader

/-- Nothing but the end of the input stops the reading of a program. -/
theorem kind_of_readThrough {src : Source} {n m : Nat} {ts rest : List Token} {value : Program}
    (h : readThrough src n ts = .ok (value, m, rest)) : ∀ t ∈ rest.head?, t.kind = .eof := by
  cases ts with
  | nil =>
    rw [readThrough] at h
    cases h
    rintro t ⟨⟩
  | cons t ts =>
    rw [readThrough] at h
    split at h
    · next heof =>
      cases h
      rintro _ ⟨⟩
      exact heof
    split at h
    · exact kind_of_readThrough h
    -- A function or a statement comes first, and what it leaves is read next.
    split at h
    all_goals
      obtain ⟨⟨_, ts₁, hshorter⟩, -, h⟩ := exists_of_bind_eq_ok h
      obtain ⟨⟨_, _, _⟩, hread, h⟩ := exists_of_bind_eq_ok h
      cases h
      exact kind_of_readThrough hread
termination_by ts.length

/-! ## Indices -/

/-- The tokens that are not used up, whether something is read or not. -/
def Reading.unread {α : Type} {b : Nat} : Except ParseError (Reading α b) → List Token
  | .ok r => r.rest
  | .error e => e.unread

theorem Reader.unread_map {α γ : Type} {b : Nat} (x : Except ParseError (Reading γ b))
    (view : Reading γ b → α × Nat) :
    Reader.unread (x.map fun r => ((view r).1, (view r).2, r.rest)) = Reading.unread x := by
  cases x <;> rfl

/-- What a reader does that is called at an index of the tokens, where it is given all of them from
there on but the last one, which is kept apart. It stands at an index afterwards, a later one if it
succeeds, and no token between the two ends the input. -/
def MovesOn {α : Type} {b : Nat} (tokens : List Token) (i : Nat)
    (x : Except ParseError (Reading α b)) :
    Prop :=
  ∃ j, i ≤ j ∧ (x.isOk → i < j) ∧ j < tokens.length ∧ Reading.unread x = tokens.dropLast.drop j ∧
    ∀ t ∈ (tokens.take j).drop i, t.kind ≠ .eof

section

variable {α : Type} {tokens : List Token} {i : Nat} (hi : i < tokens.length)
include hi

theorem MovesOn.of_usedUpTo {b : Nat} (hb : b = (tokens.dropLast.drop i).length)
    {x : Except ParseError (Reading α b)}
    (h : UsedUpTo (tokens.dropLast.drop i) (Reading.unread x)) :
    MovesOn tokens i x := by
  obtain ⟨used, hused, hkinds⟩ := h
  have hlength : b = used.length + (Reading.unread x).length :=
    hb.trans ((congrArg List.length hused).trans List.length_append)
  rw [List.length_drop, List.length_dropLast] at hb
  have htake : (tokens.take (i + used.length)).drop i = used := by
    have hlast : tokens.take (i + used.length) = tokens.dropLast.take (i + used.length) := by
      rw [List.dropLast_eq_take, List.take_take, Nat.min_eq_left]
      omega
    rw [hlast, List.drop_take, hused, Nat.add_sub_cancel_left, List.take_left]
  refine ⟨i + used.length, Nat.le_add_right _ _, fun hok => ?_, ?_, ?_, ?_⟩
  · cases x with
    | error e => cases hok
    | ok r =>
      have hshorter := r.shorter
      change b = used.length + r.rest.length at hlength
      omega
  · omega
  · rw [← List.drop_drop, hused, List.drop_left]
  · rwa [htake]

theorem movesOn_plain {read : Token → (ts : List Token) → Except ParseError (Reading α ts.length)}
    (h : ∀ ts, Reader.Made .used [] (Reader.plain read) ts) (stop : Token) :
    MovesOn tokens i (read stop (tokens.dropLast.drop i)) := by
  have hupTo := (h (tokens.dropLast.drop i)).usedUpTo ⟨stop, []⟩ 0
  exact .of_usedUpTo hi rfl (Reader.unread_map _ (fun r => (r.value, 0)) ▸ hupTo)

theorem movesOn_numbered
    {read : Source → Nat → (ts : List Token) → Except ParseError (Reading (Numbered α) ts.length)}
    (h : ∀ ts, Reader.Made .names [] (Reader.numbered read) ts) (src : Source) (n : Nat) :
    MovesOn tokens i (read src n (tokens.dropLast.drop i)) := by
  have hupTo := (h (tokens.dropLast.drop i)).usedUpTo src n
  exact .of_usedUpTo hi rfl (Reader.unread_map _ (fun r => r.value) ▸ hupTo)

end

/-! ## Programs -/

theorem completed_ne_nil (ts : List Token) : completed ts ≠ [] := by
  obtain ⟨-, after, hafter⟩ := exists_completed ts
  rw [hafter]
  exact List.append_ne_nil_of_right_ne_nil _ (List.cons_ne_nil _ _)

/-- The program that is read if all tokens but the last one are given, whatever stands among them,
and what is left of these. -/
def readWhole (ts : List Token) : Except ParseError (Program × Nat × List Token) :=
  readThrough ⟨(completed ts).getLast (completed_ne_nil ts), identifiers ts⟩ 0
    (completed ts).dropLast

theorem findIdx_completed (ts : List Token) :
    (completed ts).findIdx (·.kind = .eof) = (beforeEnd ts).length := by
  obtain ⟨hstop, after, hafter⟩ := exists_completed ts
  have hnone : (beforeEnd ts).findIdx (·.kind = .eof) = (beforeEnd ts).length :=
    List.findIdx_eq_length.mpr fun t ht => decide_eq_false (kind_ne_of_mem_beforeEnd ht)
  rw [hafter, List.findIdx_append, hnone, if_neg (Nat.lt_irrefl _), List.findIdx_cons,
    decide_eq_true hstop]
  exact Nat.zero_add _

/-- What is read from all tokens is what is read from those before the first that ends the input. -/
theorem readWhole_eq (ts : List Token) : ∃ later, (completed ts).dropLast = beforeEnd ts ++ later ∧
    readWhole ts = Reader.followed later (readThrough (.ofTokens ts) 0 (beforeEnd ts)) := by
  obtain ⟨hstop, after, hafter⟩ := exists_completed ts
  unfold readWhole
  cases after with
  | nil =>
    -- No token but the last one ends the input, and this one is kept apart.
    simp only [hafter, List.dropLast_concat, List.getLast_append_singleton]
    exact ⟨[], (List.append_nil _).symm, (Reader.followed_nil _).symm⟩
  | cons t after =>
    have hlast : (completed ts).dropLast =
        beforeEnd ts ++ endToken ts :: (t :: after).dropLast := by
      rw [hafter, List.dropLast_append_cons, List.dropLast_cons_cons]
    refine ⟨_, hlast, ?_⟩
    rw [hlast]
    have hend : endToken ts = ⟨.eof, (endToken ts).pos⟩ := by rw [← hstop]
    have happend := (Reader.made_program [] (beforeEnd ts)).append_eof
      ⟨(completed ts).getLast (completed_ne_nil ts), identifiers ts⟩ 0 (endToken ts).pos
        (t :: after).dropLast
    rw [← hend] at happend
    exact happend

theorem length_beforeEnd_lt (ts : List Token) : (beforeEnd ts).length < (completed ts).length := by
  obtain ⟨-, after, hafter⟩ := exists_completed ts
  rw [hafter, List.length_append, List.length_cons]
  omega

theorem usedUpTo_readThrough (src : Source) (n : Nat) (ts : List Token) :
    UsedUpTo ts (Reader.unread (readThrough src n ts)) :=
  (Reader.made_program [] ts).usedUpTo src n

/-- No token before the first that ends the input is left. -/
theorem eq_nil_of_readThrough {src : Source} {n m : Nat} {ts rest : List Token} {value : Program}
    (h : readThrough src n (beforeEnd ts) = .ok (value, m, rest)) : rest = [] := by
  have hupTo := usedUpTo_readThrough src n (beforeEnd ts)
  rw [h] at hupTo
  obtain ⟨used, hused, -⟩ := hupTo
  cases rest with
  | nil => rfl
  | cons t rest =>
    have hmem : t ∈ beforeEnd ts := hused ▸ List.mem_append_right _ List.mem_cons_self
    exact absurd (kind_of_readThrough h t rfl) (kind_ne_of_mem_beforeEnd hmem)

/-- Every reader moves on, through whatever tokens, and the whole list is read up to the first token
that ends the input. If there is a program, then no token before that one is left, and otherwise
reading stops there at the latest. -/
theorem parse_moves_on (ts : List Token) :
    (∀ i < (completed ts).length, ∀ (src : Source) (inFunction : Bool) (next : Nat),
      let given := (completed ts).dropLast.drop i
      MovesOn (completed ts) i (readExpr src.stop given) ∧
      MovesOn (completed ts) i (readBlock src inFunction next given) ∧
      MovesOn (completed ts) i (readStmt src inFunction next given) ∧
      MovesOn (completed ts) i (readLine src inFunction next given) ∧
      MovesOn (completed ts) i (readFunction src next given)) ∧
    let k := (completed ts).findIdx (·.kind = .eof)
    k < (completed ts).length ∧
      ((∃ p m, parse ts = .ok p ∧ readWhole ts = .ok (p, m, (completed ts).dropLast.drop k)) ∨
        ∃ e, ∃ j ≤ k, parse ts = .error e ∧
          readWhole ts = .error { e with unread := (completed ts).dropLast.drop j }) := by
  constructor
  · intro i hi src inFunction next
    exact ⟨movesOn_plain hi (Reader.made_level [] .disjunction) src.stop,
      movesOn_numbered hi (Reader.made_block [] inFunction) src next,
      movesOn_numbered hi (Reader.made_stmt [] inFunction) src next,
      movesOn_numbered hi (Reader.made_line [] inFunction) src next,
      movesOn_numbered hi (fun _ => Reader.made_function) src next⟩
  · obtain ⟨later, hlater, hall⟩ := readWhole_eq ts
    rw [findIdx_completed, hall, hlater, parse, readProgram_eq]
    refine ⟨length_beforeEnd_lt ts, ?_⟩
    cases hread : readThrough (.ofTokens ts) 0 (beforeEnd ts) with
    | ok r =>
      obtain ⟨p, m, rest⟩ := r
      obtain rfl := eq_nil_of_readThrough hread
      left
      refine ⟨p, m, rfl, ?_⟩
      rw [List.drop_left]
      rfl
    | error e =>
      have hupTo := usedUpTo_readThrough (.ofTokens ts) 0 (beforeEnd ts)
      rw [hread] at hupTo
      obtain ⟨used, hused, -⟩ := hupTo
      right
      refine ⟨e, used.length, ?_, rfl, ?_⟩
      · rw [hused, List.length_append]
        exact Nat.le_add_right _ _
      · rw [hused, List.append_assoc, List.drop_left]
        rfl

/-- The line `x`, and more tokens after its end. -/
def endedLine : List Token :=
  [⟨.ident "x", ⟨1, 1⟩⟩, ⟨.eof, ⟨1, 2⟩⟩, ⟨.dedent, ⟨2, 1⟩⟩, ⟨.symbol .closeParen, ⟨2, 1⟩⟩,
    ⟨.eof, ⟨2, 2⟩⟩]

/-- Reading stands at the first token that ends the input. -/
theorem parse_moves_on_endedLine :
    parse endedLine = .ok [.eval (.var "x")] ∧
      ∃ m, readWhole endedLine =
        .ok ([.eval (.var "x")], m, (completed endedLine).dropLast.drop 1) := by
  have h : parse endedLine = .ok [.eval (.var "x")] := by cbv
  obtain ⟨-, -, ⟨p, m, hp, hall⟩ | ⟨e, j, -, he, -⟩⟩ := parse_moves_on endedLine
  · cases h.symm.trans hp
    exact ⟨h, m, hall⟩
  · cases h.symm.trans he

end Braces
