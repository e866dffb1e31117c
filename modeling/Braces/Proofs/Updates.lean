import Braces.Proofs.Running.Traces
import Braces.Proofs.Stability
import Braces.Proofs.Updates.Operators

/-!
# Augmented assignments evaluate their targets twice

An augmented assignment means that the list and the position of its target are evaluated once. The
assignment that it is rewritten to evaluates them again for the store. Both do the same exactly if
that makes no call and comes to the same element, which holds of names and of items that names and
literals give.
-/

namespace Braces

open Attempt Run

variable {V H α β : Type}

/-! ## What an augmented assignment means -/

namespace Machine

variable (M : Machine V H) (r : Region V)

/-- The operand that an old value is. It is converted if text is added to it. -/
def operand (op : BinOp) (value : Expr) (old : V) : Run V H V :=
  if op = .add ∧ value.isTextual then M.toText [old] else pure old

/-- What an operator makes of an old value and an expression. -/
def combineWith (op : BinOp) (value : Expr) (old : V) : Run V H V := do
  let left ← M.operand op value old
  let right ← M.eval r value
  operate (M.runtime.binary op left right)

/-- The list and the position of an item. -/
def locate (list position : Expr) : Run V H (V × V) := do
  let l ← M.eval r list
  let i ← M.eval r position
  return (l, i)

def storeItem (place : V × V) (v : V) : Run V H (Flow V) := do
  operate fun h => (M.runtime.storeAt place.1 place.2 v h).map ((), ·)
  return .next

/-- What an operator makes of the element at a place. -/
def renew (op : BinOp) (value : Expr) (place : V × V) : Run V H V := do
  let old ← operate fun h => (M.runtime.element place.1 place.2 h).map (·, h)
  M.combineWith r op value old

/-- The place of an item, and the new value for it. -/
def renewed (op : BinOp) (value list position : Expr) : Run V H ((V × V) × V) := do
  let place ← M.locate r list position
  return (place, ← M.renew r op value place)

/-- An augmented assignment: the parts of the target are evaluated once, and the new value is stored
to the element that the old one was read from. -/
def update (op : BinOp) (value : Expr) : Place → Run V H (Flow V)
  | .name x => do
    let old ← read r x
    let new ← M.combineWith r op value old
    write x new
    return .next
  | .item list position => do
    let (place, new) ← M.renewed r op value list position
    M.storeItem place new

variable {M r}

theorem eval_combine {op : BinOp} {e value : Expr} (hop : op.isLogical = false)
    (he : e.isTextual = false) :
    M.eval r (.combine op e value) = M.eval r e >>= M.combineWith r op value := by
  unfold Expr.combine
  rw [he, Bool.false_or]
  split
  · next htextual =>
    have hvalue : value.toText = value := if_pos htextual.2
    have htext : e.toText = .call Expr.strName [e] := if_neg (by rw [he]; exact Bool.false_ne_true)
    rw [hvalue, htext, eval, eval, evalAll, evalAll]
    simp only [bind_assoc, pure_bind, hop, if_true, Bool.false_eq_true, if_false]
    refine bind_congr fun old => ?_
    rw [combineWith, operand, if_pos htextual]
  · next htextual =>
    rw [eval]
    simp only [hop, Bool.false_eq_true, if_false]
    refine bind_congr fun old => ?_
    rw [combineWith, operand, if_neg htextual, pure_bind]

/-- The rewritten assignment evaluates the parts of its target again. -/
theorem exec_assignAt_combine {op : BinOp} {value list position : Expr}
    (hop : op.isLogical = false) :
    M.exec r (.assignAt list position (.combine op (.index list position) value)) =
      (do
        let (_, new) ← M.renewed r op value list position
        let place ← M.locate r list position
        M.storeItem place new) := by
  rw [exec, eval_combine hop rfl, eval, renewed, locate]
  simp only [renew, bind_assoc, pure_bind]
  rfl

theorem exec_assign_combine {op : BinOp} {value : Expr} {x : String} (hop : op.isLogical = false) :
    M.exec r (.assign x (.combine op (.var x) value)) = M.update r op value (.name x) := by
  rw [exec, eval_combine hop rfl, eval, update]
  simp only [bind_assoc]

end Machine

theorem isLogical_of_augmented? {k : Kind} {op : BinOp} (h : augmented? k = some op) :
    op.isLogical = false := by
  unfold augmented? at h
  split at h <;> cases h <;> rfl

/-! ## When evaluating again makes no difference -/

variable {G : Growth H}

/-- Runs end alike, but for what the second one has added to the store. -/
def EndsSame (G : Growth H) (o o' : Result V (Recorded V H) α) : Prop :=
  o'.1 = o.1 ∧ o.2.Extends G o'.2

/-- Evaluating the parts of an item again makes no call. It comes to the same element if the store
is made, and to a fault if it is not. -/
structure Machine.Repeats (M : Machine V (Recorded V H)) (r : Region V) (list position : Expr)
    (place : V × V) (new : V) (m : Memory V (Recorded V H)) : Prop where
  quiet : ((M.locate r list position).on m).2.heap.2 = m.heap.2
  same : ((M.storeItem place new).on m).1 = .ok .next →
    ((M.locate r list position).on m).1 = .ok place
  fault : ((M.storeItem place new).on m).1 = .error .raised →
    ((M.locate r list position >>= (M.storeItem · new)).on m).1 = .error .raised

/-- A store to an element is made and recorded, or it raises. -/
theorem on_storeItem (R : Runtime V H) (n : Nat) (place : V × V) (v : V)
    (m : Memory V (Recorded V H)) :
    (∃ store, R.storeAt place.1 place.2 v m.heap.1 = some store ∧
      ((recorder R n).storeItem place v).on m = (.ok .next,
        { m with heap := (store, m.heap.2 ++ [.stored place.1 place.2 v]) })) ∨
    R.storeAt place.1 place.2 v m.heap.1 = none ∧
      ((recorder R n).storeItem place v).on m = (.error .raised, m) := by
  cases hstore : R.storeAt place.1 place.2 v m.heap.1 with
  | none =>
    refine .inr ⟨rfl, on_bind_error (on_operate_none ?_)⟩
    simp [recorder, Runtime.recorded, hstore]
  | some store =>
    have hrecorded : ((recorder R n).runtime.storeAt place.1 place.2 v m.heap).map (((), ·)) =
        some ((), store, m.heap.2 ++ [.stored place.1 place.2 v]) := by
      simp [recorder, Runtime.recorded, hstore]
    refine .inl ⟨store, rfl, ?_⟩
    rw [Machine.storeItem, on_bind_ok (on_operate_some hrecorded)]
    rfl

section
variable {R : Runtime V H} {n : Nat} {r : Region V} {list position : Expr} {place : V × V} {new : V}
  {m : Memory V (Recorded V H)}

theorem Runtime.Adds.locate (hR : R.Adds G) (n : Nat) (r : Region V) (list position : Expr) :
    Accounted G ((recorder R n).locate r list position) :=
  (hR.eval n r list).bind fun _ => (hR.eval n r position).bind fun _ => .pure _

theorem repeats_of_endsSame
    (h : EndsSame G (((recorder R n).storeItem place new).on m)
      (((recorder R n).locate r list position >>= ((recorder R n).storeItem · new)).on m)) :
    (recorder R n).Repeats r list position place new m := by
  obtain ⟨hresult, hextends⟩ := h
  have heffects := hextends.effects
  generalize ho : ((recorder R n).locate r list position).on m = o at *
  obtain ⟨result, m₁⟩ := o
  cases result with
  | error f =>
    rw [on_bind_error ho] at hresult heffects
    obtain ⟨store, -, honce⟩ | ⟨-, honce⟩ := on_storeItem R n place new m
    · rw [honce] at hresult
      cases hresult
    · rw [honce] at hresult heffects
      refine ⟨by rw [ho]; exact heffects, ?_, ?_⟩
      · rw [honce]
        rintro ⟨⟩
      · intro _
        rw [on_bind_error ho]
        exact hresult
  | ok place' =>
    rw [on_bind_ok ho] at hresult heffects
    obtain ⟨store, -, honce⟩ | ⟨-, honce⟩ := on_storeItem R n place new m
    · obtain ⟨store', -, htwice⟩ | ⟨-, htwice⟩ := on_storeItem R n place' new m₁
      · -- Both records end with the store.
        rw [honce, htwice] at heffects
        obtain ⟨hquiet, hstored⟩ := List.append_inj' heffects rfl
        cases place'
        cases place
        cases hstored
        refine ⟨by rw [ho]; exact hquiet, fun _ => by rw [ho], ?_⟩
        rw [honce]
        rintro ⟨⟩
      · rw [honce, htwice] at hresult
        cases hresult
    · obtain ⟨store', -, htwice⟩ | ⟨-, htwice⟩ := on_storeItem R n place' new m₁
      · rw [honce, htwice] at hresult
        cases hresult
      · rw [honce, htwice] at heffects
        refine ⟨by rw [ho]; exact heffects, ?_, ?_⟩
        · rw [honce]
          rintro ⟨⟩
        · intro _
          rw [on_bind_ok ho, htwice]

theorem Machine.Repeats.endsSame (hR : R.Adds G)
    (h : (recorder R n).Repeats r list position place new m) :
    EndsSame G (((recorder R n).storeItem place new).on m)
      (((recorder R n).locate r list position >>= ((recorder R n).storeItem · new)).on m) := by
  obtain ⟨hquiet, hsame, hfault⟩ := h
  have hextends := (hR.locate n r list position m).2 hquiet
  generalize ho : ((recorder R n).locate r list position).on m = o at *
  obtain ⟨result, m₁⟩ := o
  obtain ⟨store, hstore, honce⟩ | ⟨-, honce⟩ := on_storeItem R n place new m
  · rw [honce] at hsame ⊢
    cases hsame rfl
    rw [on_bind_ok ho]
    -- What was added to the store does not disturb the store to the element.
    obtain ⟨store', hstore', hrel⟩ := hR.storeAt hextends.store hstore
    obtain ⟨store'', hstore'', htwice⟩ | ⟨hnone, -⟩ := on_storeItem R n place new m₁
    · cases hstore'.symm.trans hstore''
      rw [htwice]
      refine ⟨rfl, hextends.vars, hextends.functions, hextends.printed, ?_, hrel⟩
      exact congrArg (· ++ _) hextends.effects
    · cases hstore'.symm.trans hnone
  · rw [honce] at hfault ⊢
    refine ⟨hfault rfl, ?_⟩
    cases result with
    | error f =>
      rw [on_bind_error ho]
      exact hextends
    | ok place' =>
      have hfault := hfault rfl
      rw [on_bind_ok ho] at hfault ⊢
      obtain ⟨store', -, htwice⟩ | ⟨-, htwice⟩ := on_storeItem R n place' new m₁
      · rw [htwice] at hfault
        cases hfault
      · rw [htwice]
        exact hextends

end

/-- Evaluating the target of an augmented assignment again makes no difference. -/
def Machine.Repeatable (M : Machine V (Recorded V H)) (r : Region V) (op : BinOp) (value : Expr)
    (m : Memory V (Recorded V H)) : Place → Prop
  | .name _ => True
  | .item list position => ∀ place new m₁,
      (M.renewed r op value list position).on m = (.ok (place, new), m₁) →
      M.Repeats r list position place new m₁

theorem EndsSame.refl (o : Result V (Recorded V H) α) : EndsSame G o o := ⟨rfl, .refl _⟩

/-- The assignment that an augmented assignment is rewritten to does the same exactly if evaluating
the target again makes no difference. -/
theorem endsSame_iff_repeatable {R : Runtime V H} (hR : R.Adds G) {op : BinOp}
    (hop : op.isLogical = false)
    (n : Nat) (r : Region V) (place : Place) (value : Expr) (m : Memory V (Recorded V H)) :
    EndsSame G (((recorder R n).update r op value place).on m)
        (((recorder R n).exec r (place.store (.combine op place.expr value))).on m) ↔
      (recorder R n).Repeatable r op value m place := by
  cases place with
  | name x =>
    change EndsSame G _ (((recorder R n).exec r
      (.assign x (.combine op (.var x) value))).on m) ↔ True
    rw [Machine.exec_assign_combine hop]
    exact iff_of_true (.refl _) trivial
  | item list position =>
    change EndsSame G _ (((recorder R n).exec r
      (.assignAt list position (.combine op (.index list position) value))).on m) ↔ _
    rw [Machine.exec_assignAt_combine hop, Machine.update, Machine.Repeatable]
    generalize ho : ((recorder R n).renewed r op value list position).on m = o
    obtain ⟨result, m₁⟩ := o
    cases result with
    | error f =>
      rw [on_bind_error ho, on_bind_error ho]
      refine iff_of_true (.refl _) ?_
      rintro place new m₁ ⟨⟩
    | ok found =>
      obtain ⟨place, new⟩ := found
      rw [on_bind_ok ho, on_bind_ok ho]
      constructor
      · rintro hsame _ _ _ ⟨⟩
        exact repeats_of_endsSame hsame
      · intro hrepeats
        exact (hrepeats place new m₁ rfl).endsSame hR

/-! ## Targets that may be evaluated again -/

/-- A run looks at nothing but variables, and leaves the memory as it is. -/
def Run.Reads (x : Run V H α) : Prop :=
  ∀ m m' : Memory V H, m'.vars = m.vars → x.on m' = ((x.on m).1, m')

namespace Run.Reads

theorem pure (a : α) : Reads (Pure.pure a : Run V H α) := fun _ _ _ => rfl

theorem bind {x : Run V H α} {f : α → Run V H β} (hx : Reads x) (hf : ∀ a, Reads (f a)) :
    Reads (x >>= f) := by
  intro m m' hvars
  have hm := hx m m rfl
  have hm' := hx m m' hvars
  generalize (x.on m).1 = result at hm hm'
  cases result with
  | error e => rw [on_bind_error hm, on_bind_error hm']
  | ok a =>
    rw [on_bind_ok hm, on_bind_ok hm']
    exact hf a m m' hvars

theorem read (r : Region V) (x : String) : Reads (Run.read (H := H) r x) := by
  intro m m' hvars
  cases hx : r.lookup m.vars x with
  | none => rw [on_read_none hx, on_read_none (hvars ▸ hx)]
  | some v => rw [on_read_some hx, on_read_some (hvars ▸ hx)]

end Run.Reads

/-- Expressions whose value is at hand: names and literals. -/
def Expr.isAtHand : Expr → Bool
  | .var _ | .int _ | .float _ | .str _ | .bool _ => true
  | _ => false

/-- A name, or an item whose list and position are at hand. -/
def Place.isAtHand : Place → Bool
  | .name _ => true
  | .item list position => list.isAtHand && position.isAtHand

theorem Machine.reads_eval (M : Machine V H) (r : Region V) {e : Expr} (he : e.isAtHand) :
    Reads (M.eval r e) := by
  cases e with
  | int | float | str | bool =>
    rw [Machine.eval]
    exact .pure _
  | var x =>
    rw [Machine.eval]
    exact .read r x
  | _ => cases he

theorem Machine.reads_locate (M : Machine V H) (r : Region V) {list position : Expr}
    (h : (Place.item list position).isAtHand) : Reads (M.locate r list position) := by
  have hboth := Bool.and_eq_true_iff.1 h
  exact (M.reads_eval r hboth.1).bind fun _ => (M.reads_eval r hboth.2).bind fun _ => .pure _

section
variable {R : Runtime V H} {n : Nat} {r : Region V} {op : BinOp} {value list position : Expr}
  {place : V × V} {new : V} {m m₀ m₁ : Memory V (Recorded V H)}

theorem touches_renew (R : Runtime V H) (n : Nat) (r : Region V) (op : BinOp) (value : Expr)
    (place : V × V) : Touches longer [] ((recorder R n).renew r op value place) := by
  have hM := contained_recorder R n
  refine .bind (.inspect _) fun old => .bind ?_ fun _ => ?_
  · exact .ite (Machine.Contained.toText [old]) (.pure old)
  · exact (hM.eval r value).bind fun _ => .operate hM.runtime.binary

theorem Runtime.Adds.renew (hR : R.Adds G) (n : Nat) (r : Region V) (op : BinOp) (value : Expr)
    (place : V × V) : Accounted G ((recorder R n).renew r op value place) := by
  refine .bind (.inspect _) fun old => .bind ?_ fun _ => ?_
  · exact .ite (.toText R n [old]) (.pure old)
  · exact (hR.eval n r value).bind fun _ => .add hR.binary

/-- A new value is made after the item is found. -/
theorem on_renewed
    (h : ((recorder R n).renewed r op value list position).on m = (.ok (place, new), m₁)) :
    ∃ m₀, ((recorder R n).locate r list position).on m = (.ok place, m₀) ∧
      ((recorder R n).renew r op value place).on m₀ = (.ok new, m₁) := by
  generalize ho : ((recorder R n).locate r list position).on m = o
  obtain ⟨result, m₀⟩ := o
  cases result with
  | error f =>
    rw [Machine.renewed, on_bind_error ho] at h
    cases h
  | ok found =>
    rw [Machine.renewed, on_bind_ok ho] at h
    generalize ho' : ((recorder R n).renew r op value found).on m₀ = o' at h
    obtain ⟨result', m'⟩ := o'
    cases result' with
    | error f =>
      rw [on_bind_error ho'] at h
      cases h
    | ok v =>
      rw [on_bind_ok ho'] at h
      cases h
      exact ⟨m₀, rfl, ho'⟩

/-- The item is found again, without a call and in a store that what is there now extends. -/
theorem Machine.Repeats.of_locate (hR : R.Adds G)
    (h : ((recorder R n).locate r list position).on m = (.ok place, m₀))
    (heffects : m₀.heap.2 = m.heap.2) (hstore : G.rel m₀.heap.1 m.heap.1) :
    (recorder R n).Repeats r list position place new m := by
  refine ⟨by rw [h]; exact heffects, fun _ => by rw [h], fun hfault => ?_⟩
  rw [on_bind_ok h]
  obtain ⟨store, -, honce⟩ | ⟨hnone, -⟩ := on_storeItem R n place new m
  · rw [honce] at hfault
    cases hfault
  obtain ⟨store, hsome, -⟩ | ⟨-, htwice⟩ := on_storeItem R n place new m₀
  · obtain ⟨store', hsome', -⟩ := hR.storeAt hstore hsome
    cases hsome'.symm.trans hnone
  · rw [htwice]

theorem Machine.Repeatable.of_isAtHand (hR : R.Adds G) {place : Place} (hplace : place.isAtHand) :
    (recorder R n).Repeatable r op value m place := by
  cases place with
  | name x => trivial
  | item list position =>
    intro place new m₁ hrenewed
    obtain ⟨m₀, hlocate, hrenew⟩ := on_renewed hrenewed
    have hreads := (recorder R n).reads_locate r hplace
    -- No variable has changed since the item was found.
    have hvars : m₁.vars = m.vars := by
      have hm₀ : m₀ = m := congrArg Prod.snd (hlocate.symm.trans (hreads m m rfl))
      have hkept := touches_renew R n r op value place m₀
      rw [hrenew, hm₀] at hkept
      exact funext fun x => hkept.vars x List.not_mem_nil
    have hagain := hreads m m₁ hvars
    rw [hlocate] at hagain
    exact .of_locate hR hagain rfl (G.refl _)

/-- All that is evaluated before an item is stored to leaves the memory as it is. -/
def Machine.Leaves (M : Machine V H) (r : Region V) (op : BinOp) (value : Expr) (m : Memory V H) :
    Place → Prop
  | .name _ => True
  | .item list position => ((M.renewed r op value list position).on m).2 = m

theorem Machine.Repeatable.of_leaves (hR : R.Adds G) {place : Place}
    (hleaves : (recorder R n).Leaves r op value m place) :
    (recorder R n).Repeatable r op value m place := by
  cases place with
  | name x => trivial
  | item list position =>
    intro place new m₁ hrenewed
    have hm₁ : m₁ = m := by
      rw [← (show _ = m from hleaves), hrenewed]
    subst hm₁
    obtain ⟨m₀, hlocate, hrenew⟩ := on_renewed hrenewed
    have hfound := (hR.locate n r list position m₁).1
    have hmade := hR.renew n r op value place m₀
    rw [hlocate] at hfound
    rw [hrenew] at hmade
    have heffects : m₀.heap.2 = m₁.heap.2 :=
      hmade.1.eq_of_length_le hfound.length_le
    exact .of_locate hR hlocate heffects (hmade.2 heffects.symm).store

end

/-! ## Lists in a store -/

/-- Lists are added. -/
def additions {S : Type} : Growth (List (List S)) :=
  ⟨fun h h' => h <+: h', fun _ => List.prefix_rfl, fun h h' => h.trans h'⟩

/-- A store to an element of a list is the same with other lists added. -/
theorem Arithmetic.storeAt_of_isPrefix {S : Type} (A : Arithmetic S)
    {target position value : Datum S}
    {h h' h₁ : List (List S)} (hh : h <+: h')
    (hstore : A.storeAt target position value h = some h₁) :
    ∃ h₁', A.storeAt target position value h' = some h₁' ∧ h₁ <+: h₁' := by
  obtain ⟨more, rfl⟩ := hh
  unfold Arithmetic.storeAt at hstore ⊢
  split at hstore
  · next place p s =>
    obtain ⟨xs, hxs, hstore⟩ := Option.bind_eq_some_iff.1 hstore
    obtain ⟨i, hi, hstore⟩ := Option.bind_eq_some_iff.1 hstore
    split at hstore
    · next hlt =>
      cases hstore
      have hplace : place < h.length := (List.getElem?_eq_some_iff.1 hxs).1
      refine ⟨(h ++ more).set place (xs.set i s), ?_, ?_⟩
      · simp only [List.getElem?_append_left hplace, hxs, Option.bind_some, hi, if_pos hlt]
      · rw [List.set_append_left _ _ hplace]
        exact List.prefix_append _ _
    · cases hstore
  · cases hstore

theorem Arithmetic.adds {S : Type} (A : Arithmetic S) : A.runtime.Adds additions where
  binary heq := A.isPrefix_binary heq
  signed heq := A.isPrefix_signed heq
  list vs h := A.isPrefix_list vs h
  range heq := A.isPrefix_range heq
  storeAt hh heq := A.storeAt_of_isPrefix hh heq

/-! ## Programs that are parsed -/

/-- Every augmented assignment of a program that is parsed is rewritten to an assignment to its
target. This does the same as the augmented assignment, however both end, exactly if evaluating the
target again makes no difference. It makes none if the list and the position are at hand, or if all
that is evaluated before the store leaves the memory as it is. -/
theorem parsed_updates_once_iff {ts : List Token} {p : Program} (h : parse ts = .ok p)
    {pre post : List Kind} {k : Kind} {op : BinOp} (hks : kinds (beforeEnd ts) = pre ++ k :: post)
    (hk : augmented? k = some op) :
    ∃ place value, Rewritten op pre post p place value ∧
      ∀ {V H : Type} {R : Runtime V H} {G : Growth H}, R.Adds G →
        ∀ (n : Nat) (r : Region V) (m : Memory V (Recorded V H)),
          (EndsSame G (((recorder R n).update r op value place).on m)
              (((recorder R n).exec r (place.store (.combine op place.expr value))).on m) ↔
            (recorder R n).Repeatable r op value m place) ∧
          (place.isAtHand ∨ (recorder R n).Leaves r op value m place →
            (recorder R n).Repeatable r op value m place) := by
  obtain ⟨place, value, hrewritten⟩ := allRewritten_of_parse h pre k post op hks hk
  refine ⟨place, value, hrewritten, ?_⟩
  intro V H R G hR n r m
  refine ⟨endsSame_iff_repeatable hR (isLogical_of_augmented? hk) n r place value m, ?_⟩
  rintro (hplace | hleaves)
  · exact .of_isAtHand hR hplace
  · exact .of_leaves hR hleaves

/-- The tokens of `a[f()] += 1`. -/
def calledIndex : List Token :=
  [.ident "a", .symbol .openSquare, .ident "f", .symbol .openParen, .symbol .closeParen,
    .symbol .closeSquare, .symbol .plusEqual, .int 1, .newline].map (⟨·, .start⟩)

/-- A list `a`, and a function `f` that prints and returns zero. -/
def answering : Memory (Datum Scalar) (Recorded (Datum Scalar) (List (List Scalar))) where
  vars x := if x = "a" then some (.list 0) else none
  functions name :=
    if name = "f" then some ⟨"f", [], [.print [.str "f"], .ret (some (.int 0))]⟩ else none
  heap := ([[.int 5]], [])
  printed := []

theorem parse_calledIndex : parse calledIndex = .ok [.assignAt (.var "a") (.call "f" [])
    (.binary .add (.index (.var "a") (.call "f" [])) (.int 1))] := by
  cbv

/-- The target and the value of an assignment that adds a number to an item. -/
theorem eq_of_store_combine {place : Place} {value list position : Expr} {n : Int}
    (h : place.store (.combine .add place.expr value) =
      .assignAt list position (.binary .add (.index list position) (.int n))) :
    place = .item list position ∧ value = .int n := by
  cases place with
  | name x => cases h
  | item list' position' =>
    change Stmt.assignAt list' position' (.combine .add (.index list' position') value) = _ at h
    injection h with hlist hposition hvalue
    subst hlist hposition
    rw [Expr.combine] at hvalue
    split at hvalue
    · -- Text would have made a conversion of the item.
      injection hvalue with _ hitem _
      cases hitem
    · injection hvalue with _ _ hvalue
      exact ⟨rfl, hvalue⟩

/-- An index that is a call is evaluated twice: the function prints once in the augmented
assignment, and twice in what it is rewritten to. -/
theorem parsed_updates_once_iff_calledIndex :
    let M := recorder Scalar.arithmetic.runtime 1
    let place : Place := .item (.var "a") (.call "f" [])
    ∃ p pre post, parse calledIndex = .ok p ∧
      kinds (beforeEnd calledIndex) = pre ++ .symbol .plusEqual :: post ∧
      Rewritten .add pre post p place (.int 1) ∧
      ((M.update .module .add (.int 1) place).on answering).2.printed = ["f"] ∧
      ((M.exec .module (place.store (.combine .add place.expr (.int 1)))).on answering).2.printed =
        ["f", "f"] ∧
      ¬ M.Repeatable .module .add (.int 1) answering place := by
  intro M place
  have hks : kinds (beforeEnd calledIndex) =
      (kinds calledIndex).take 6 ++ .symbol .plusEqual :: (kinds calledIndex).drop 7 := rfl
  obtain ⟨place', value, hrewritten, hruns⟩ := parsed_updates_once_iff parse_calledIndex hks rfl
  obtain ⟨rfl, rfl⟩ : place' = place ∧ value = .int 1 := by
    obtain hmem | hmem := mem_allStmts_singleton.1 hrewritten.2.2
    · exact eq_of_store_combine hmem
    · cases hmem
  have honce : ((M.update .module .add (.int 1) place).on answering).2.printed = ["f"] := rfl
  have htwice :
      ((M.exec .module (place.store (.combine .add place.expr (.int 1)))).on answering).2.printed =
        ["f", "f"] := rfl
  refine ⟨_, _, _, parse_calledIndex, hks, hrewritten, honce, htwice, fun hrepeatable => ?_⟩
  have hsame := ((hruns Scalar.arithmetic.adds 1 .module answering).1.2 hrepeatable).2.printed
  rw [honce, htwice] at hsame
  cases hsame

end Braces
