import Braces.Proofs.Syntax.Soundness

/-!
# Every phrase is read

The readers take a phrase off the front of a token list, whatever follows it, as long as that does
not go on with the phrase. Operators of one level are read in a loop that carries what was read so
far, and so are subscripts: a phrase of such a grade is as good as having its expression in the loop
already.
-/

namespace Braces

/-- A reading that succeeds with a value and leaves some tokens. -/
def ReadsAs {α : Type} {n : Nat} (x : Except ParseError (Reading α n)) (value : α)
    (rest : List Token) :
    Prop :=
  ∃ h, x = .ok ⟨value, rest, h⟩

section ReadsAs
variable {α β : Type} {n m : Nat} {value : α} {value' : β} {rest rest' : List Token}

theorem ReadsAs.ok {h : rest.length < n} : ReadsAs (.ok ⟨value, rest, h⟩) value rest := ⟨h, rfl⟩

theorem ReadsAs.bind {x : Except ParseError (Reading α n)}
    {f : Reading α n → Except ParseError (Reading β m)} (hx : ReadsAs x value rest)
    (hf : ∀ h, ReadsAs (f ⟨value, rest, h⟩) value' rest') : ReadsAs (x >>= f) value' rest' := by
  obtain ⟨h, rfl⟩ := hx
  exact hf h

theorem ReadsAs.unique {x : Except ParseError (Reading α n)} {value' : α} (h : ReadsAs x value rest)
    (h' : ReadsAs x value' rest') : value = value' ∧ rest = rest' := by
  obtain ⟨_, h⟩ := h
  obtain ⟨_, h'⟩ := h'
  cases h.symm.trans h'
  exact ⟨rfl, rfl⟩

theorem Gives.of_reads {P : α → List Token → Prop} {x : Except ParseError (Reading α n)}
    (h : Gives P x) (hx : ReadsAs x value rest) : P value rest := by
  obtain ⟨hlt, heq⟩ := hx
  exact h _ heq

end ReadsAs

variable {stop : Token}

theorem reads_expect {k : Kind} {t : Token} {rest : List Token} (ht : t.kind = k) :
    ReadsAs (expect stop k (t :: rest)) () rest := by
  simp only [expect, if_pos ht]
  exact .ok

theorem reads_readTail {l : Level} {e : Expr} {used rest : List Token}
    (h : Stops l.grade used rest) : ReadsAs (readTail stop l e rest) e rest := by
  unfold readTail
  split
  · exact .ok
  · next t more =>
    split
    · exact .ok
    · next op hop =>
      obtain ⟨hkind, hgrade⟩ := Level.operator?_eq_some_iff.mp hop
      have := h.operator t more rfl op hkind
      omega

theorem reads_readSubscripts {n : Nat} {e : Expr} {used rest : List Token} (h : Stops n used rest) :
    ReadsAs (readSubscripts stop e rest) e rest := by
  unfold readSubscripts
  split
  · next pos more => exact absurd rfl (h.subscript _ more rfl)
  · exact .ok

theorem readNot_eq_readLevel {ts : List Token}
    (h : ∀ t more, ts = t :: more → t.kind ≠ .keyword .not) :
    readNot stop ts = readLevel stop .comparison ts := by
  unfold readNot
  split
  · exact absurd rfl (h _ _ rfl)
  · rfl

/-- What the loop over a level's operators does after an expression, the level does from its
start. -/
def FollowsLevel (stop : Token) (l : Level) (ks : List Kind) (e : Expr) : Prop :=
  ∀ ⦃used rest out left⦄, kinds used = ks → Stops (l.grade + 1) used rest →
    ReadsAs (readTail stop l e rest) out left → ReadsAs (readLevel stop l (used ++ rest)) out left

/-- What the readers do with the tokens of an expression, grade by grade. -/
def Follows (stop : Token) (n : Nat) (ks : List Kind) (e : Expr) : Prop :=
  match n with
  | 1 => FollowsLevel stop .disjunction ks e
  | 2 => FollowsLevel stop .conjunction ks e
  | 3 => ∀ ⦃used rest⦄, kinds used = ks → Stops 3 used rest →
      ReadsAs (readNot stop (used ++ rest)) e rest
  | 4 => FollowsLevel stop .comparison ks e
  | 5 => FollowsLevel stop .sum ks e
  | 6 => FollowsLevel stop .product ks e
  | 7 => ∀ ⦃used rest⦄, kinds used = ks → Stops 7 used rest →
      ReadsAs (readSigned stop (used ++ rest)) e rest
  | 8 | 9 => ∀ ⦃used rest out left⦄, kinds used = ks → Uncalled used rest →
      ReadsAs (readSubscripts stop e rest) out left →
        ReadsAs (readSigned stop (used ++ rest)) out left
  | _ => True

namespace Follows

variable {n : Nat} {ks ks' : List Kind} {e : Expr} {used rest : List Token}

theorem level_iff (l : Level) : Follows stop l.grade ks e ↔ FollowsLevel stop l ks e := by
  cases l <;> exact Iff.rfl

theorem reads_readLevel {l : Level} (h : Follows stop l.grade ks e) (hused : kinds used = ks)
    (hstops : Stops l.grade used rest) : ReadsAs (readLevel stop l (used ++ rest)) e rest :=
  (level_iff l).mp h hused (hstops.mono (Nat.le_succ _)) (reads_readTail hstops)

/-- The operands of a level are one grade tighter. -/
theorem reads_readOperand {l : Level} (h : Follows stop (l.grade + 1) ks e)
    (hused : kinds used = ks) (hstops : Stops (l.grade + 1) used rest) :
    ReadsAs (readOperand stop l (used ++ rest)) e rest := by
  cases l with
  | disjunction =>
    rw [readOperand]
    exact reads_readLevel (l := .conjunction) h hused hstops
  | conjunction =>
    rw [readOperand]
    exact h hused hstops
  | comparison =>
    rw [readOperand]
    exact reads_readLevel (l := .sum) h hused hstops
  | sum =>
    rw [readOperand]
    exact reads_readLevel (l := .product) h hused hstops
  | product =>
    rw [readOperand]
    exact h hused hstops

theorem level_of_operand {l : Level} (h : Follows stop (l.grade + 1) ks e) :
    Follows stop l.grade ks e := by
  refine (level_iff l).mpr fun used rest out left hused hstops htail => ?_
  rw [readLevel]
  refine (h.reads_readOperand hused hstops).bind fun _ => ?_
  refine htail.bind fun _ => ?_
  exact .ok

theorem not_of_comparison (h : Follows stop 4 ks e)
    (hstart : ∃ k ks', ks = k :: ks' ∧ k.starts 4 = true) : Follows stop 3 ks e := by
  intro used rest hused hstops
  obtain ⟨k, ks', rfl, hk⟩ := hstart
  obtain ⟨t, us, rfl, rfl, rfl⟩ := List.map_eq_cons_iff.mp hused
  rw [readNot_eq_readLevel]
  · exact reads_readLevel (l := .comparison) h hused (hstops.mono (by decide))
  · rintro _ _ ⟨⟩ hnot
    rw [hnot] at hk
    cases hk

theorem tighter (hn : n < 9) (h : Follows stop (n + 1) ks e)
    (hstart : ∃ k ks', ks = k :: ks' ∧ k.starts (n + 1) = true) : Follows stop n ks e := by
  match n, hn with
  | 0, _ => trivial
  | 1, _ => exact level_of_operand (l := .disjunction) h
  | 2, _ => exact level_of_operand (l := .conjunction) h
  | 3, _ => exact not_of_comparison h hstart
  | 4, _ => exact level_of_operand (l := .comparison) h
  | 5, _ => exact level_of_operand (l := .sum) h
  | 6, _ => exact level_of_operand (l := .product) h
  | 7, _ =>
    exact fun used rest hused hstops => h hused hstops.uncalled (reads_readSubscripts hstops)
  | 8, _ => exact h

theorem binary {op : BinOp} {l r : Expr} (hl : Follows stop op.grade ks l)
    (hr : Follows stop (op.grade + 1) ks' r) (hne : ks' ≠ []) :
    Follows stop op.grade (ks ++ op.kind :: ks') (.combine op l r) := by
  obtain ⟨level, hlevel⟩ : ∃ level : Level, level.grade = op.grade := by
    cases op
    case or => exact ⟨.disjunction, rfl⟩
    case and => exact ⟨.conjunction, rfl⟩
    case add | sub => exact ⟨.sum, rfl⟩
    case mul | div | floorDiv | mod => exact ⟨.product, rfl⟩
    all_goals exact ⟨.comparison, rfl⟩
  rw [← hlevel, level_iff] at hl
  rw [← hlevel] at hr
  rw [← hlevel, level_iff]
  intro used rest out left hused hstops htail
  obtain ⟨us, more, rfl, rfl, hmore⟩ := List.map_eq_append_iff.mp hused
  obtain ⟨t, us', rfl, ht, rfl⟩ := List.map_eq_cons_iff.mp hmore
  rw [List.append_assoc, List.cons_append]
  refine hl rfl (hlevel ▸ Stops.of_operator ht) ?_
  have hstops' : Stops (level.grade + 1) us' rest := by
    rw [List.append_cons] at hstops
    exact (Stops.append_iff _ hne).mp hstops
  rw [readTail, Level.operator?_eq_some_iff.mpr ⟨ht, hlevel.symm⟩]
  refine (hr.reads_readOperand rfl hstops').bind fun _ => ?_
  refine htail.bind fun _ => ?_
  exact .ok

/-- The sign or negation in front of a phrase, and the phrase. -/
theorem exists_of_cons {k : Kind} (hused : kinds used = k :: ks) (hne : ks ≠ [])
    (hstops : Stops n used rest) :
    ∃ pos us, used = ⟨k, pos⟩ :: us ∧ kinds us = ks ∧ Stops n us rest := by
  obtain ⟨⟨_, pos⟩, us, rfl, rfl, rfl⟩ := List.map_eq_cons_iff.mp hused
  exact ⟨pos, us, rfl, rfl, (Stops.append_iff [_] hne).mp hstops⟩

theorem not (h : Follows stop 3 ks e) (hne : ks ≠ []) :
    Follows stop 3 (.keyword .not :: ks) (.unary .not e) := by
  intro used rest hused hstops
  obtain ⟨pos, us, rfl, hus, hstops⟩ := exists_of_cons hused hne hstops
  rw [List.cons_append, readNot]
  refine (h hus hstops).bind fun _ => ?_
  exact .ok

theorem plus (h : Follows stop 7 ks e) (hne : ks ≠ []) :
    Follows stop 7 (.symbol .plus :: ks) (.unary .plus e) := by
  intro used rest hused hstops
  obtain ⟨pos, us, rfl, hus, hstops⟩ := exists_of_cons hused hne hstops
  rw [List.cons_append, readSigned]
  refine (h hus hstops).bind fun _ => ?_
  exact .ok

theorem minus (h : Follows stop 7 ks e) (hne : ks ≠ []) :
    Follows stop 7 (.symbol .minus :: ks) (.unary .neg e) := by
  intro used rest hused hstops
  obtain ⟨pos, us, rfl, hus, hstops⟩ := exists_of_cons hused hne hstops
  rw [List.cons_append, readSigned]
  refine (h hus hstops).bind fun _ => ?_
  exact .ok

theorem reads_readExpr (h : Follows stop 1 ks e) (hused : kinds used = ks)
    (hstops : Stops 1 used rest) : ReadsAs (readLevel stop .disjunction (used ++ rest)) e rest :=
  reads_readLevel (l := .disjunction) h hused hstops

theorem index {target position : Expr} (ht : Follows stop 8 ks target)
    (hp : Follows stop 1 ks' position) :
    Follows stop 8 (ks ++ .symbol .openSquare :: (ks' ++ [.symbol .closeSquare]))
      (.index target position) := by
  intro used rest out left hused _ hsubscripts
  obtain ⟨us, more, rfl, rfl, hmore⟩ := List.map_eq_append_iff.mp hused
  obtain ⟨⟨_, pos⟩, more', rfl, rfl, hmore'⟩ := List.map_eq_cons_iff.mp hmore
  obtain ⟨us', closing, rfl, rfl, hclosing⟩ := List.map_eq_append_iff.mp hmore'
  obtain ⟨t, rfl, hclose⟩ := List.map_eq_singleton_iff.mp hclosing
  rw [List.append_assoc, List.cons_append, List.append_assoc, List.singleton_append]
  refine ht rfl (by rintro _ _ ⟨⟩ ⟨⟩) ?_
  rw [readSubscripts]
  refine (hp.reads_readExpr rfl (.of_kind (by rw [hclose]; rfl))).bind fun _ => ?_
  refine (reads_expect hclose).bind fun _ => ?_
  refine hsubscripts.bind fun _ => ?_
  exact .ok

/-- Operands, which start with neither a sign nor a negation. -/
theorem atom (hstart : ∃ k ks', ks = k :: ks' ∧ k.starts 8 = true)
    (h : ∀ ⦃used rest⦄, kinds used = ks → Uncalled used rest →
      ReadsAs (readAtom stop (used ++ rest)) e rest) : Follows stop 9 ks e := by
  intro used rest out left hused huncalled hsubscripts
  have hatom := h hused huncalled
  obtain ⟨k, ks', rfl, hk⟩ := hstart
  obtain ⟨t, us, rfl, rfl, rfl⟩ := List.map_eq_cons_iff.mp hused
  rw [readSigned.eq_def]
  generalize heq : t :: us ++ rest = ts at hatom ⊢
  split
  · cases heq
    cases hk
  · cases heq
    cases hk
  · refine hatom.bind fun _ => ?_
    refine hsubscripts.bind fun _ => ?_
    exact .ok

/-- A token that is an expression by itself, whatever follows it. -/
theorem literal {k : Kind} (hk : k.starts 8 = true)
    (h : ∀ pos rest, ReadsAs (readAtom stop (⟨k, pos⟩ :: rest)) e rest) : Follows stop 9 [k] e := by
  refine atom ⟨k, [], rfl, hk⟩ fun used rest hused _ => ?_
  obtain ⟨⟨_, pos⟩, rfl, rfl⟩ := List.map_eq_singleton_iff.mp hused
  exact h pos rest

/-- A phrase in brackets. -/
theorem group (h : Follows stop 1 ks e) :
    Follows stop 9 (.symbol .openParen :: (ks ++ [.symbol .closeParen])) e := by
  refine atom ⟨_, _, rfl, rfl⟩ fun used rest hused _ => ?_
  obtain ⟨⟨_, pos⟩, more, rfl, rfl, hmore⟩ := List.map_eq_cons_iff.mp hused
  obtain ⟨us, closing, rfl, rfl, hclosing⟩ := List.map_eq_append_iff.mp hmore
  obtain ⟨t, rfl, hclose⟩ := List.map_eq_singleton_iff.mp hclosing
  rw [List.cons_append, List.append_assoc, List.singleton_append, readAtom]
  refine (h.reads_readExpr rfl (.of_kind (by rw [hclose]; rfl))).bind fun _ => ?_
  refine (reads_expect hclose).bind fun _ => ?_
  exact .ok

end Follows

/-- What the reader does with items and the bracket that closes them. -/
def FollowsItems (stop : Token) (ks : List Kind) (es : List Expr) : Prop :=
  ∀ ⦃close used t rest⦄, close = .closeParen ∨ close = .closeSquare → kinds used = ks →
    t.kind = .symbol close → ReadsAs (readItems stop close (used ++ t :: rest)) es rest

namespace FollowsItems

variable {ks ks' : List Kind} {e : Expr} {es : List Expr}

theorem none : FollowsItems stop [] [] := by
  intro close used t rest _ hused ht
  obtain rfl := List.map_eq_nil_iff.mp hused
  rw [List.nil_append, readItems, if_pos ht]
  exact .ok

/-- The first item does not start like the bracket that closes them. -/
theorem ne_close {k : Kind} {close : Symbol} (hk : k.starts 1 = true)
    (hclose : close = .closeParen ∨ close = .closeSquare) : k ≠ .symbol close := by
  rintro rfl
  obtain rfl | rfl := hclose <;> cases hk

theorem last (h : Follows stop 1 ks e) (hstart : ∃ k ks', ks = k :: ks' ∧ k.starts 1 = true) :
    FollowsItems stop ks [e] := by
  intro close used t rest hclose hused ht
  have hcontinues : t.kind.continues = false := by
    rw [ht]
    obtain rfl | rfl := hclose <;> rfl
  have hstops : Stops 1 used (t :: rest) := .of_kind hcontinues
  have hread := h.reads_readExpr hused hstops
  obtain ⟨k, ks', rfl, hk⟩ := hstart
  obtain ⟨t', us, rfl, rfl, rfl⟩ := List.map_eq_cons_iff.mp hused
  rw [List.cons_append] at hread ⊢
  rw [readItems, if_neg (ne_close hk hclose)]
  refine hread.bind fun _ => ?_
  dsimp only
  split
  · next heq _ =>
    cases heq
    obtain rfl | rfl := hclose <;> cases ht
  · refine (reads_expect ht).bind fun _ => ?_
    exact .ok

theorem more (h : Follows stop 1 ks e) (hstart : ∃ k ks', ks = k :: ks' ∧ k.starts 1 = true)
    (hes : FollowsItems stop ks' es) :
    FollowsItems stop (ks ++ .symbol .comma :: ks') (e :: es) := by
  intro close used t rest hclose hused ht
  obtain ⟨us, more, rfl, rfl, hmore⟩ := List.map_eq_append_iff.mp hused
  obtain ⟨⟨_, pos⟩, us', rfl, rfl, rfl⟩ := List.map_eq_cons_iff.mp hmore
  rw [List.append_assoc, List.cons_append]
  have hstops : Stops 1 us (⟨.symbol .comma, pos⟩ :: (us' ++ t :: rest)) := .of_kind rfl
  have hread := h.reads_readExpr rfl hstops
  obtain ⟨k, ks, heq, hk⟩ := hstart
  obtain ⟨t', us, rfl, rfl, rfl⟩ := List.map_eq_cons_iff.mp heq
  rw [List.cons_append] at hread ⊢
  rw [readItems, if_neg (ne_close hk hclose)]
  refine hread.bind fun _ => ?_
  refine (hes hclose rfl ht).bind fun _ => ?_
  exact .ok

theorem list (h : FollowsItems stop ks es) :
    Follows stop 9 (.symbol .openSquare :: (ks ++ [.symbol .closeSquare])) (.list es) := by
  refine .atom ⟨_, _, rfl, rfl⟩ fun used rest hused _ => ?_
  obtain ⟨⟨_, pos⟩, more, rfl, rfl, hmore⟩ := List.map_eq_cons_iff.mp hused
  obtain ⟨us, closing, rfl, rfl, hclosing⟩ := List.map_eq_append_iff.mp hmore
  obtain ⟨t, rfl, hclose⟩ := List.map_eq_singleton_iff.mp hclosing
  rw [List.cons_append, List.append_assoc, List.singleton_append, readAtom]
  refine (h (.inr rfl) rfl hclose).bind fun _ => ?_
  exact .ok

theorem call {name : String} (h : FollowsItems stop ks es) (hnode : callNode name es = .ok e) :
    Follows stop 9 (.ident name :: .symbol .openParen :: (ks ++ [.symbol .closeParen])) e := by
  refine .atom ⟨_, _, rfl, rfl⟩ fun used rest hused _ => ?_
  obtain ⟨⟨_, pos⟩, more, rfl, rfl, hmore⟩ := List.map_eq_cons_iff.mp hused
  obtain ⟨⟨_, pos'⟩, more', rfl, rfl, hmore'⟩ := List.map_eq_cons_iff.mp hmore
  obtain ⟨us, closing, rfl, rfl, hclosing⟩ := List.map_eq_append_iff.mp hmore'
  obtain ⟨t, rfl, hclose⟩ := List.map_eq_singleton_iff.mp hclosing
  rw [List.cons_append, List.cons_append, List.append_assoc, List.singleton_append, readAtom]
  refine (h (.inl rfl) rfl hclose).bind fun _ => ?_
  simp only [hnode]
  exact .ok

end FollowsItems

theorem callNode_eq_call {name : String} (hlen : name ≠ "len") (hrange : name ≠ "range")
    (args : List Expr) : callNode name args = .ok (.call name args) := by
  unfold callNode
  exact (if_neg hlen).trans (if_neg hrange)

/-- A name that is not called. -/
theorem follows_var (name : String) : Follows stop 9 [.ident name] (.var name) := by
  refine .atom ⟨_, _, rfl, rfl⟩ fun used rest hused huncalled => ?_
  obtain ⟨⟨_, pos⟩, rfl, rfl⟩ := List.map_eq_singleton_iff.mp hused
  rw [List.singleton_append]
  cases rest with
  | nil =>
    rw [readAtom]
    · exact .ok
    · rintro _ _ ⟨⟩
  | cons t more =>
    rw [readAtom]
    · exact .ok
    · rintro _ _ ⟨⟩
      exact huncalled _ _ rfl rfl name rfl

mutual

theorem Phrase.follows : ∀ {n : Nat} {ks : List Kind} {e : Expr}, Phrase n ks e →
    Follows stop n ks e
  | _, _, _, .tighter hn h => h.follows.tighter hn h.starts
  | _, _, _, .binary hl hr => hl.follows.binary hr.follows hr.ne_nil
  | _, _, _, .not h => h.follows.not h.ne_nil
  | _, _, _, .plus h => h.follows.plus h.ne_nil
  | _, _, _, .minus h => h.follows.minus h.ne_nil
  | _, _, _, .index ht hp => ht.follows.index hp.follows
  | _, _, _, .int n => Follows.literal rfl fun pos rest => by rw [readAtom]; exact .ok
  | _, _, _, .float x => Follows.literal rfl fun pos rest => by rw [readAtom]; exact .ok
  | _, _, _, .str s => Follows.literal rfl fun pos rest => by rw [readAtom]; exact .ok
  | _, _, _, .bool b => Follows.literal rfl fun pos rest => by rw [readAtom]; exact .ok
  | _, _, _, .var name => follows_var name
  | _, _, _, .group h => h.follows.group
  | _, _, _, .list h => h.follows.list
  | _, _, _, .call hlen hrange h => h.follows.call (callNode_eq_call hlen hrange _)
  | _, _, _, .len h => h.follows.call rfl
  | _, _, _, .rangeTo h => h.follows.call rfl
  | _, _, _, .rangeFrom h => h.follows.call rfl
  | _, _, _, .rangeBy h => h.follows.call rfl

theorem Phrases.follows : ∀ {ks : List Kind} {es : List Expr}, Phrases ks es →
    FollowsItems stop ks es
  | _, _, .none => .none
  | _, _, .last h => .last h.follows h.starts
  | _, _, .more h hes => .more h.follows h.starts hes.follows

end

end Braces
