import Braces.Proofs.Syntax.Phrases

/-!
# What is read is a phrase

Each reader of expressions gives an expression that the tokens it used up spell, and stops where the
next token does not go on with it. A reader that goes on from something already read, as after the
first operand of a sum, is told which tokens spell that.
-/

namespace Braces

/-- What a reading gives, said of its value and of the tokens left. -/
def Gives {α : Type} {n : Nat} (P : α → List Token → Prop) (x : Except ParseError (Reading α n)) :
    Prop :=
  ∀ r, x = .ok r → P r.value r.rest

namespace Gives

variable {α β : Type} {n m : Nat} {P P' : α → List Token → Prop} {Q : β → List Token → Prop}

theorem error (e : ParseError) : Gives P (.error e : Except ParseError (Reading α n)) := by
  intro r h
  cases h

theorem ok {value : α} {rest : List Token} {h : rest.length < n} (hvalue : P value rest) :
    Gives P (.ok ⟨value, rest, h⟩) := by
  intro r heq
  cases heq
  exact hvalue

theorem bind {x : Except ParseError (Reading α n)}
    {f : Reading α n → Except ParseError (Reading β m)} (hx : Gives P x)
    (hf : ∀ value rest h, P value rest → Gives Q (f ⟨value, rest, h⟩)) : Gives Q (x >>= f) := by
  cases x with
  | error e => exact .error e
  | ok r => exact hf r.value r.rest r.shorter (hx r rfl)

theorem mono {x : Except ParseError (Reading α n)} (hx : Gives P x)
    (h : ∀ value rest, P value rest → P' value rest) : Gives P' x :=
  fun r heq => h r.value r.rest (hx r heq)

end Gives

theorem gives_expect {stop : Token} {k : Kind} {ts : List Token} :
    Gives (fun _ rest => ∃ t, ts = t :: rest ∧ t.kind = k) (expect stop k ts) := by
  unfold expect
  split
  · exact .error _
  · next t rest =>
    split
    · next hk => exact .ok ⟨t, rfl, hk⟩
    · exact .error _

namespace Level

/-- The grade of a level's expressions. -/
def grade : Level → Nat
  | disjunction => 1
  | conjunction => 2
  | comparison => 4
  | sum => 5
  | product => 6

theorem operator?_eq_some_iff {l : Level} {k : Kind} {op : BinOp} :
    l.operator? k = some op ↔ k = op.kind ∧ op.grade = l.grade := by
  constructor
  · intro h
    unfold operator? at h
    split at h <;> first | (cases h; exact ⟨rfl, rfl⟩) | cases h
  · rintro ⟨rfl, hgrade⟩
    cases op <;> cases l <;> first | rfl | cases hgrade

theorem grade_le (l : Level) : l.grade ≤ 6 := by
  cases l <;> decide

end Level

theorem BinOp.grade_le (op : BinOp) : op.grade ≤ 6 := by
  cases op <;> decide

/-- Tokens that, after some that are already read, spell an expression. -/
def Spells (n : Nat) (before ts : List Token) (e : Expr) (rest : List Token) : Prop :=
  ∃ used, ts = used ++ rest ∧ Phrase n (kinds (before ++ used)) e ∧ Stops n (before ++ used) rest

namespace Spells

variable {n : Nat} {before used ts rest : List Token} {e : Expr}

/-- Nothing more is used up. -/
theorem self (hphrase : Phrase n (kinds before) e) (hstops : Stops n before ts) :
    Spells n before ts e ts :=
  ⟨[], rfl, by simpa using hphrase, by simpa using hstops⟩

/-- Tokens that were read first are used up too. -/
theorem prepend (h : Spells n (before ++ used) ts e rest) :
    Spells n before (used ++ ts) e rest := by
  obtain ⟨more, rfl, hphrase, hstops⟩ := h
  refine ⟨used ++ more, (List.append_assoc used more rest).symm, ?_, ?_⟩
  · rwa [← List.append_assoc]
  · rwa [← List.append_assoc]

/-- A token in front makes another expression of the same grade. -/
theorem cons {t : Token} {e' : Expr} (h : Spells n [] ts e rest)
    (hphrase : ∀ {ks}, Phrase n ks e → Phrase n (t.kind :: ks) e') :
    Spells n [] (t :: ts) e' rest := by
  obtain ⟨used, rfl, hused, hstops⟩ := h
  exact ⟨t :: used, rfl, hphrase hused, (Stops.append_iff [t] hused.ne_nil).mpr hstops⟩

end Spells

/-- Items and the bracket that closes them. -/
def Closes (close : Symbol) (ts : List Token) (es : List Expr) (rest : List Token) : Prop :=
  ∃ used t, ts = used ++ t :: rest ∧ t.kind = .symbol close ∧ Phrases (kinds used) es

/-- The tokens of an operand, and whether they can be taken for the name of a call. -/
def SpellsAtom (ts : List Token) (e : Expr) (rest : List Token) : Prop :=
  ∃ used, ts = used ++ rest ∧ Phrase 9 (kinds used) e ∧ Uncalled used rest

theorem uncalled_of_getLast? {used rest : List Token} {k : Kind}
    (h : (kinds used).getLast? = some k) (hk : ∀ name, k ≠ .ident name) : Uncalled used rest := by
  rintro t more rfl - name heq
  rw [h, Option.some.injEq] at heq
  exact hk name heq

/-- Tokens that end with a bracket. -/
theorem uncalled_snoc (used : List Token) {rest : List Token} {t : Token} {s : Symbol}
    (ht : t.kind = .symbol s) :
    Uncalled (used ++ [t]) rest :=
  uncalled_of_getLast? (k := t.kind) (by simp) (by rw [ht]; exact nofun)

theorem Phrases.callNode {name : String} {ks : List Kind} {args : List Expr} {e : Expr}
    (h : Phrases ks args) (hnode : callNode name args = .ok e) :
    Phrase 9 (.ident name :: .symbol .openParen :: (ks ++ [.symbol .closeParen])) e := by
  unfold Braces.callNode at hnode
  split at hnode
  · next hname =>
    subst hname
    split at hnode
    · cases hnode
      exact .len h
    · cases hnode
  split at hnode
  · next hname =>
    subst hname
    split at hnode
    · cases hnode
      exact .rangeTo h
    · cases hnode
      exact .rangeFrom h
    · cases hnode
      exact .rangeBy h
    · cases hnode
  · next hlen hrange =>
    cases hnode
    exact .call hlen hrange h

mutual

theorem gives_readLevel (stop : Token) (l : Level) (ts : List Token) :
    Gives (Spells l.grade [] ts) (readLevel stop l ts) := by
  rw [readLevel]
  refine (gives_readOperand stop l ts).bind fun left rest hlt hleft => ?_
  obtain ⟨used, rfl, hphrase, hstops⟩ := hleft
  have hphrase := Phrase.tighter (Nat.lt_of_le_of_lt l.grade_le (by decide)) hphrase
  refine (gives_readTail stop l left used rest hphrase hstops).bind fun e r₁ _ he => ?_
  exact .ok he.prepend
termination_by 32 * ts.length + (2 * l.rank + 1)
decreasing_by
  · omega
  · subst_vars
    omega

theorem gives_readTail (stop : Token) (l : Level) (left : Expr) (before ts : List Token)
    (hphrase : Phrase l.grade (kinds before) left) (hstops : Stops (l.grade + 1) before ts) :
    Gives (Spells l.grade before ts) (readTail stop l left ts) := by
  unfold readTail
  split
  · exact .ok (.self hphrase .nil)
  · next t rest =>
    split
    · next hnone =>
      refine .ok (.self hphrase ⟨?_, hstops.subscript, hstops.uncalled⟩)
      rintro _ _ ⟨⟩ op hop
      have hle := hstops.operator t rest rfl op hop
      have hne : op.grade ≠ l.grade := by
        intro hgrade
        rw [Level.operator?_eq_some_iff.mpr ⟨hop, hgrade⟩] at hnone
        cases hnone
      omega
    · next op hop =>
      obtain ⟨hkind, hgrade⟩ := Level.operator?_eq_some_iff.mp hop
      refine (gives_readOperand stop l rest).bind fun right r₁ hlt hright => ?_
      obtain ⟨used, rfl, hused, hused_stops⟩ := hright
      rw [List.nil_append] at hused hused_stops
      have hcombined : Phrase l.grade (kinds (before ++ t :: used)) (.combine op left right) := by
        rw [kinds_append, kinds_cons, hkind, ← hgrade]
        rw [← hgrade] at hphrase hused
        exact .binary hphrase hused
      have hstops' : Stops (l.grade + 1) (before ++ t :: used) r₁ := by
        rw [List.append_cons]
        exact (Stops.append_iff _ hused.ne_nil).mpr hused_stops
      refine (gives_readTail stop l _ _ r₁ hcombined hstops').bind fun e r₂ _ he => ?_
      have hprepend : Spells l.grade before ((t :: used) ++ r₁) e r₂ := he.prepend
      exact .ok hprepend
termination_by 32 * ts.length
decreasing_by
  · have := l.rank_le
    subst_vars
    simp only [List.length_cons]
    omega
  · subst_vars
    simp only [List.length_cons]
    omega

theorem gives_readOperand (stop : Token) (l : Level) (ts : List Token) :
    Gives (Spells (l.grade + 1) [] ts) (readOperand stop l ts) := by
  match l with
  | .disjunction => rw [readOperand]; exact gives_readLevel stop .conjunction ts
  | .conjunction => rw [readOperand]; exact gives_readNot stop ts
  | .comparison => rw [readOperand]; exact gives_readLevel stop .sum ts
  | .sum => rw [readOperand]; exact gives_readLevel stop .product ts
  | .product => rw [readOperand]; exact gives_readSigned stop ts
termination_by 32 * ts.length + 2 * l.rank
decreasing_by all_goals simp only [Level.rank]; omega

theorem gives_readNot (stop : Token) (ts : List Token) :
    Gives (Spells 3 [] ts) (readNot stop ts) := by
  unfold readNot
  split
  · next rest =>
    refine (gives_readNot stop rest).bind fun e r₁ _ he => ?_
    exact .ok (he.cons .not)
  · refine (gives_readLevel stop .comparison ts).mono ?_
    rintro e rest ⟨used, rfl, hphrase, hstops⟩
    refine ⟨used, rfl, .tighter (by decide) hphrase, ?_, hstops.subscript, hstops.uncalled⟩
    -- No operator makes expressions of the grade of `not`.
    intro t more heq op hop
    have hlt : op.grade < 4 := hstops.operator t more heq op hop
    have hne : op.grade ≠ 3 := by cases op <;> decide
    omega
termination_by 32 * ts.length + 12
decreasing_by
  · subst_vars
    simp only [List.length_cons]
    omega
  · simp only [Level.rank]
    omega

theorem gives_readSigned (stop : Token) (ts : List Token) :
    Gives (Spells 7 [] ts) (readSigned stop ts) := by
  unfold readSigned
  split
  · next rest =>
    refine (gives_readSigned stop rest).bind fun e r₁ _ he => ?_
    exact .ok (he.cons .plus)
  · next rest =>
    refine (gives_readSigned stop rest).bind fun e r₁ _ he => ?_
    exact .ok (he.cons .minus)
  · refine (gives_readAtom stop ts).bind fun e rest hlt he => ?_
    obtain ⟨used, rfl, hphrase, huncalled⟩ := he
    have hphrase := Phrase.tighter (by decide) hphrase
    refine (gives_readSubscripts stop e used rest hphrase huncalled).bind fun e' r₁ _ he' => ?_
    exact .ok he'.prepend
termination_by 32 * ts.length + 5
decreasing_by
  · subst_vars
    simp only [List.length_cons]
    omega
  · subst_vars
    simp only [List.length_cons]
    omega
  · omega
  · subst_vars
    omega

theorem gives_readSubscripts (stop : Token) (target : Expr) (before ts : List Token)
    (hphrase : Phrase 8 (kinds before) target) (huncalled : Uncalled before ts) :
    Gives (Spells 7 before ts) (readSubscripts stop target ts) := by
  unfold readSubscripts
  split
  · next pos rest =>
    refine (gives_readLevel stop .disjunction rest).bind fun i r₁ hlt hi => ?_
    obtain ⟨used, rfl, hused, -⟩ := hi
    refine gives_expect.bind fun _ r₂ hlt₁ hclose => ?_
    obtain ⟨t, rfl, ht⟩ := hclose
    have hindex : Phrase 8 (kinds (before ++ ⟨.symbol .openSquare, pos⟩ :: (used ++ [t])))
        (.index target i) := by
      simp only [kinds_append, kinds_cons, kinds_nil, ht]
      exact .index hphrase hused
    have huncalled' : Uncalled (before ++ ⟨.symbol .openSquare, pos⟩ :: (used ++ [t])) r₂ := by
      rw [← List.cons_append, ← List.append_assoc]
      exact uncalled_snoc _ ht
    refine (gives_readSubscripts stop _ _ r₂ hindex huncalled').bind fun e r₃ _ he => ?_
    refine .ok ?_
    have := he.prepend
    rwa [List.cons_append, List.append_assoc, List.singleton_append] at this
  · next hsquare =>
    refine .ok (.self (.tighter (by decide) hphrase) ⟨?_, ?_, huncalled⟩)
    · intro t more _ op _
      exact Nat.lt_succ_of_le op.grade_le
    · rintro ⟨k, pos⟩ more rfl rfl
      exact hsquare pos more rfl
termination_by 32 * ts.length
decreasing_by
  · subst_vars
    simp only [List.length_cons, Level.rank]
    omega
  · subst_vars
    simp only [List.length_cons] at hlt ⊢
    omega

theorem gives_readAtom (stop : Token) (ts : List Token) :
    Gives (SpellsAtom ts) (readAtom stop ts) := by
  unfold readAtom
  split
  · exact .ok ⟨[_], rfl, .int _, uncalled_of_getLast? rfl nofun⟩
  · exact .ok ⟨[_], rfl, .float _, uncalled_of_getLast? rfl nofun⟩
  · exact .ok ⟨[_], rfl, .str _, uncalled_of_getLast? rfl nofun⟩
  · exact .ok ⟨[_], rfl, .bool _, uncalled_of_getLast? rfl nofun⟩
  · next name pos pos' rest =>
    refine (gives_readItems stop .closeParen rest).bind fun args r₁ _ hargs => ?_
    obtain ⟨used, t, rfl, ht, hphrases⟩ := hargs
    dsimp only
    split
    · next e hnode =>
      refine .ok ⟨⟨.ident name, pos⟩ :: ⟨.symbol .openParen, pos'⟩ :: (used ++ [t]), ?_, ?_, ?_⟩
      · simp
      · simpa [ht] using hphrases.callNode hnode
      · exact uncalled_snoc (_ :: _ :: used) ht
    · exact .error _
  · next name pos rest hparen =>
    refine .ok ⟨[⟨.ident name, pos⟩], rfl, .var name, ?_⟩
    rintro ⟨k, pos'⟩ more rfl rfl
    exact absurd rfl (hparen pos' more)
  · next pos rest =>
    refine (gives_readLevel stop .disjunction rest).bind fun e r₁ _ he => ?_
    obtain ⟨used, rfl, hused, -⟩ := he
    refine gives_expect.bind fun _ r₂ _ hclose => ?_
    obtain ⟨t, rfl, ht⟩ := hclose
    refine .ok ⟨⟨.symbol .openParen, pos⟩ :: (used ++ [t]), by simp, ?_, ?_⟩
    · simpa [ht] using Phrase.group hused
    · exact uncalled_snoc (_ :: used) ht
  · next pos rest =>
    refine (gives_readItems stop .closeSquare rest).bind fun es r₁ _ hes => ?_
    obtain ⟨used, t, rfl, ht, hphrases⟩ := hes
    refine .ok ⟨⟨.symbol .openSquare, pos⟩ :: (used ++ [t]), by simp, ?_, ?_⟩
    · simpa [ht] using Phrase.list hphrases
    · exact uncalled_snoc (_ :: used) ht
  · exact .error _
termination_by 32 * ts.length + 4
decreasing_by
  all_goals
    subst_vars
    simp only [List.length_cons, Level.rank]
    omega

theorem gives_readItems (stop : Token) (close : Symbol) (ts : List Token) :
    Gives (Closes close ts) (readItems stop close ts) := by
  unfold readItems
  split
  · exact .error _
  · next t rest =>
    split
    · next ht => exact .ok ⟨[], t, rfl, ht, .none⟩
    · refine (gives_readLevel stop .disjunction (t :: rest)).bind fun e r₁ hlt he => ?_
      obtain ⟨used, heq, hused, -⟩ := he
      dsimp only
      split
      · next pos r₂ hlt₁ =>
        have hshorter : r₂.length < (t :: rest).length := Nat.lt_of_succ_lt hlt₁
        refine (gives_readItems stop close r₂).bind fun es r₃ _ hes => ?_
        obtain ⟨used', t', rfl, ht', hphrases⟩ := hes
        refine .ok ⟨used ++ ⟨.symbol .comma, pos⟩ :: used', t', by simp [heq], ht', ?_⟩
        simpa using Phrases.more hused hphrases
      · refine gives_expect.bind fun _ r₃ _ hclose => ?_
        obtain ⟨t', rfl, ht'⟩ := hclose
        exact .ok ⟨used, t', heq, ht', .last hused⟩
termination_by 32 * ts.length + 20
decreasing_by
  · subst_vars
    simp only [Level.rank]
    omega
  · subst_vars
    omega

end

end Braces
