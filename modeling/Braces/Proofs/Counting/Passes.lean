import Mathlib.Logic.Function.Basic
import Braces.Proofs.Counting.Headers
import Braces.Proofs.Grouping.Intended

/-!
# Passes of a counting loop

What a head does when it runs, in exact integer arithmetic: its variables are declared one after the
other, its condition is looked at before every pass, and the counter goes on after it. `Counts` says
that a head, as it is read, counts from one expression to another. Such a head visits the numbers of
the range in order, however the body changes the other variables, and a step of zero stops it before
the first test. `Valuation.exact` is one way to give expressions their values.
-/

namespace Braces

/-- How many numbers a range holds. -/
def rangeLength (a b s : Int) : Nat :=
  if 0 < s then ((b - a + s - 1) / s).toNat else ((a - b - s - 1) / -s).toNat

/-- The numbers from `a` in steps of `s`, up to `b` and without it. -/
def rangeValues (a b s : Int) : List Int :=
  (List.range (rangeLength a b s)).map fun k : Nat => a + k * s

theorem lt_rangeLength_iff {a b s : Int} (hs : s ≠ 0) (k : Nat) :
    k < rangeLength a b s ↔ if 0 < s then a + k * s < b else b < a + k * s := by
  have key : ∀ {d t : Int}, 0 < t → (k < ((d + t - 1) / t).toNat ↔ k * t < d) := by
    intro d t ht
    rw [Int.lt_toNat, ← Int.add_one_le_iff, Int.le_ediv_iff_mul_le ht, Int.add_mul, Int.one_mul]
    omega
  unfold rangeLength
  split
  · next hpos =>
    rw [key hpos]
    omega
  · next hneg =>
    have hsum : a - b - s - 1 = a - b + -s - 1 := by omega
    rw [hsum, key (by omega), Int.mul_neg]
    omega

namespace Cpp

mutual

/-- The words of a tree that stand for values: all but the names of functions and members. -/
def Tree.words : Tree → List String
  | .atom (.word w) => [w]
  | .atom _ => []
  | .binary _ l r => l.words ++ r.words
  | .prefixed _ t | .member t _ | .cast _ t => t.words
  | .call (.atom _) args => wordsOf args
  | .call f args => f.words ++ wordsOf args
  | .vector elements => wordsOf elements

def wordsOf : List Tree → List String
  | [] => []
  | t :: ts => t.words ++ wordsOf ts

end

/-- The values of words. -/
abbrev Values := String → Int

/-- What expressions come to, in exact integer arithmetic. Some names are those of integers, and
literals with signs and comparisons of integers have the values that they are written for. The rest
is left open. -/
structure Valuation (names : List String) where
  value : Values → Tree → Option Int
  /-- Only the words of an expression count. -/
  congr : ∀ {σ τ : Values} {t : Tree}, (∀ w ∈ t.words, σ w = τ w) → value σ t = value τ t
  word : ∀ {w : String}, w ∈ names → ∀ σ, value σ (.atom (.word w)) = some (σ w)
  literal : ∀ {n : Int}, 0 ≤ n → ∀ σ, value σ (.atom (.number (intLiteral n))) = some n
  plus : ∀ σ t, value σ (.prefixed "+" t) = value σ t
  minus : ∀ σ t, value σ (.prefixed "-" t) = (value σ t).map (- ·)
  less : ∀ {σ : Values} {l r : Tree} {a b : Int}, value σ l = some a → value σ r = some b →
    value σ (.binary "<" l r) = some (if a < b then 1 else 0)
  greater : ∀ {σ : Values} {l r : Tree} {a b : Int}, value σ l = some a → value σ r = some b →
    value σ (.binary ">" l r) = some (if b < a then 1 else 0)
  /-- A step of zero is an error. -/
  step : ∀ {σ : Values} {t : Tree} {s : Int}, value σ t = some s →
    value σ (calling "py_step" [t]) = if s = 0 then none else some s

namespace Valuation
variable {names : List String} (V : Valuation names)

/-- What is added to a counter. -/
def stride (σ : Values) : Option Tree → Option Int
  | none => some 1
  | some t => V.value σ t

/-- Declares variables one after the other. -/
def declare (σ : Values) (is : List (String × Tree)) : Option Values :=
  is.foldlM (fun τ i => (V.value τ i.2).map (Function.update τ i.1)) σ

/-- Whether a condition holds. -/
def holds (τ : Values) : Test → Option Bool
  | .plain t => (V.value τ t).map (· ≠ 0)
  | .choose c y n => (V.value τ c).bind fun v => (V.value τ (if v ≠ 0 then y else n)).map (· ≠ 0)

end Valuation

/-- No variable stands in what a later one starts from. -/
def Apart (is : List (String × Tree)) : Prop := is.Pairwise fun i j => i.1 ≠ j.1 ∧ i.1 ∉ j.2.words

section Declare
variable {names : List String} {V : Valuation names} {σ : Values} {w : String} {t : Tree}
  {is : List (String × Tree)} {n : Int}

theorem declare_cons_some (ht : V.value σ t = some n) :
    V.declare σ ((w, t) :: is) = V.declare (Function.update σ w n) is := by
  simp [Valuation.declare, ht]

theorem Apart.value_update (h : Apart ((w, t) :: is)) (n : Int) {i : String × Tree} (hi : i ∈ is) :
    V.value (Function.update σ w n) i.2 = V.value σ i.2 := by
  refine V.congr fun x hx => Function.update_of_ne ?_ n σ
  rintro rfl
  exact ((List.pairwise_cons.mp h).1 i hi).2 hx

/-- Variables that are apart get the values that their expressions had before all of them. -/
theorem Apart.declare (h : Apart is) (hvalues : ∀ i ∈ is, ∃ n, V.value σ i.2 = some n) :
    ∃ τ, V.declare σ is = some τ ∧ (∀ w ∉ is.map Prod.fst, τ w = σ w) ∧
      ∀ i ∈ is, V.value σ i.2 = some (τ i.1) := by
  induction is generalizing σ with
  | nil => exact ⟨σ, rfl, fun _ _ => rfl, List.forall_mem_nil _⟩
  | cons i is ih =>
    obtain ⟨w, t⟩ := i
    obtain ⟨n, hn⟩ := hvalues (w, t) List.mem_cons_self
    have hsame : ∀ i ∈ is, V.value (Function.update σ w n) i.2 = V.value σ i.2 :=
      fun i hi => h.value_update n hi
    obtain ⟨τ, hτ, hrest, his⟩ := @ih (Function.update σ w n) (List.Pairwise.of_cons h)
      fun i hi => hsame i hi ▸ hvalues i (List.mem_cons_of_mem _ hi)
    have hw : w ∉ is.map Prod.fst := by
      rintro hmem
      obtain ⟨i, hi, rfl⟩ := List.mem_map.mp hmem
      exact ((List.pairwise_cons.mp h).1 i hi).1 rfl
    refine ⟨τ, (declare_cons_some hn).trans hτ, ?_, List.forall_mem_cons.mpr ⟨?_, ?_⟩⟩
    · intro x hx
      rw [List.map_cons, List.mem_cons, not_or] at hx
      rw [hrest x hx.2, Function.update_of_ne hx.1]
    · rw [hn, hrest w hw, Function.update_self]
    · intro i hi
      rw [← hsame i hi]
      exact his i hi

/-- A variable that has nothing to start from stops the declarations. -/
theorem Apart.declare_eq_none (h : Apart is) (hnone : ∃ i ∈ is, V.value σ i.2 = none) :
    V.declare σ is = none := by
  induction is generalizing σ with
  | nil =>
    obtain ⟨i, hi, -⟩ := hnone
    cases hi
  | cons i is ih =>
    obtain ⟨w, t⟩ := i
    cases hn : V.value σ t with
    | none => simp [Valuation.declare, hn]
    | some n =>
      rw [declare_cons_some hn]
      apply ih (List.Pairwise.of_cons h)
      obtain ⟨i, hi, hi'⟩ := hnone
      obtain rfl | hi := List.mem_cons.mp hi
      · rw [hn] at hi'
        cases hi'
      · exact ⟨i, hi, (h.value_update n hi).trans hi'⟩

end Declare

/-! ## Heads that count -/

/-- A tree that has one value, whatever the variables are. -/
def Tree.Stands (t : Tree) (n : Int) : Prop :=
  ∀ {names : List String} (V : Valuation names) (σ : Values), V.value σ t = some n

def counterTree (c : String) : Tree := .atom (.word c)

def zeroTree : Tree := .atom (.number "0")

/-- What a counter is compared with: an expression, or a variable that starts from it. -/
inductive Bounded (B : Tree) : Tree → List (String × Tree) → Prop
  | itself : Bounded B B []
  | held (w) : Bounded B (counterTree w) [(w, B)]

/-- How a counter is compared with its bound and goes on. The sign of a step decides on the
comparison: before the loop if the step is a literal, and else on every pass, with the checked step
in a variable. -/
inductive Paced (c : String) (bound : Tree) :
    Option Tree → Test → Option Tree → List (String × Tree) → Prop
  | one : Paced c bound none (.plain (.binary "<" (counterTree c) bound)) none []
  | up {t n} : t.Stands n → 0 < n →
      Paced c bound (some t) (.plain (.binary "<" (counterTree c) bound)) (some t) []
  | down {t n} : t.Stands n → n < 0 →
      Paced c bound (some t) (.plain (.binary ">" (counterTree c) bound)) (some t) []
  | either (t w) :
      Paced c bound (some t)
        (.choose (.binary ">" (counterTree w) zeroTree) (.binary "<" (counterTree c) bound)
          (.binary ">" (counterTree c) bound))
        (some (counterTree w)) [(w, calling "py_step" [t])]

/-- What a condition compares with. -/
def Test.bound? : Test → Option Tree
  | .plain (.binary _ _ r) | .choose _ (.binary _ _ r) _ => some r
  | _ => none

namespace Header

/-- The variables that a head declares. -/
def names (H : Header) : List String := H.inits.map Prod.fst

/-- The parts of a head that counts from `A` in steps of `S`, as long as the counter has not come
to `B`. -/
structure CountsBy (H : Header) (A B : Tree) (S : Option Tree) (bound : Tree)
    (bounds strides : List (String × Tree)) : Prop where
  bounded : Bounded B bound bounds
  paced : Paced H.counter bound S H.test H.stride strides
  inits : H.inits = (H.counter, A) :: (bounds ++ strides)
  apart : Apart H.inits

def Counts (H : Header) (A B : Tree) (S : Option Tree) : Prop :=
  ∃ bound bounds strides, H.CountsBy A B S bound bounds strides

theorem counts_mk {c : String} {A B bound : Tree} {S d : Option Tree} {test : Test}
    {bounds strides : List (String × Tree)} (hbounded : Bounded B bound bounds)
    (hpaced : Paced c bound S test d strides) (hapart : Apart ((c, A) :: (bounds ++ strides))) :
    Counts ⟨(c, A) :: (bounds ++ strides), test, c, d⟩ A B S :=
  ⟨bound, bounds, strides, hbounded, hpaced, rfl, hapart⟩

/-- The values before the test that follows `k` passes, each with the body given for it. -/
def state (H : Header) (V : Valuation H.names) (body : Nat → Values → Values) (σ : Values) :
    Nat → Option Values
  | 0 => V.declare σ H.inits
  | k + 1 => (H.state V body σ k).bind fun τ =>
    (V.stride (body k τ) H.stride).map fun d =>
      Function.update (body k τ) H.counter (body k τ H.counter + d)

/-- The loop makes just as many passes as there are numbers, and the counter has these values in
them. -/
def Visits (H : Header) (V : Valuation H.names) (body : Nat → Values → Values) (σ : Values)
    (xs : List Int) : Prop :=
  (∀ k x, xs[k]? = some x →
    ∃ τ, H.state V body σ k = some τ ∧ V.holds τ H.test = some true ∧ τ H.counter = x) ∧
  ∃ τ, H.state V body σ xs.length = some τ ∧ V.holds τ H.test = some false

/-- The counter is compared with a variable that starts from the bound. -/
def HoldsBound (H : Header) (B : Tree) : Prop :=
  ∃ w, H.test.bound? = some (counterTree w) ∧ (w, B) ∈ H.inits.tail

/-- Whatever the three expressions come to when the loop is reached, and however the body changes
other variables than those of the head: if the step is zero the loop is not entered, and else its
counter takes the values of the range in order. A bound that no variable holds has to stay as it
is. -/
def Ranges (H : Header) (A B : Tree) (S : Option Tree) : Prop :=
  ∀ (V : Valuation H.names) (body : Nat → Values → Values) (σ : Values) (a b s : Int),
    V.value σ A = some a → V.value σ B = some b → V.stride σ S = some s →
    (∀ k τ, ∀ w ∈ H.names, body k τ w = τ w) →
    (H.HoldsBound B ∨ ∀ k τ, H.state V body σ k = some τ → V.value τ B = some b) →
    (s = 0 → H.state V body σ 0 = none) ∧ (s ≠ 0 → H.Visits V body σ (rangeValues a b s))

end Header

section Passes
variable {names : List String} {V : Valuation names} {c : String} {bound : Tree} {S d : Option Tree}
  {test : Test} {strides : List (String × Tree)} {σ τ : Values} {b s : Int}

theorem zeroTree_stands : zeroTree.Stands 0 := by
  intro names V σ
  have hzero : intLiteral 0 = "0" := by decide +kernel
  have hliteral := V.literal (Int.le_refl 0) σ
  rwa [hzero] at hliteral

theorem holds_less {l r : Tree} {a : Int} (hl : V.value τ l = some a) (hr : V.value τ r = some b) :
    V.holds τ (.plain (.binary "<" l r)) = some (decide (a < b)) := by
  rw [Valuation.holds, V.less hl hr]
  by_cases h : a < b <;> simp [h]

theorem holds_greater {l r : Tree} {a : Int} (hl : V.value τ l = some a)
    (hr : V.value τ r = some b) :
    V.holds τ (.plain (.binary ">" l r)) = some (decide (b < a)) := by
  rw [Valuation.holds, V.greater hl hr]
  by_cases h : b < a <;> simp [h]

theorem holds_choose {t y n : Tree} {v : Int} (ht : V.value τ t = some v) :
    V.holds τ (.choose t y n) = V.holds τ (.plain (if v ≠ 0 then y else n)) := by
  simp only [Valuation.holds, ht, Option.bind_some]

/-- The checked step is in its variable. -/
theorem value_of_checked {t : Tree} {w : String} (ht : V.value σ t = some s)
    (hw : V.value σ (calling "py_step" [t]) = some (τ w)) : τ w = s := by
  rw [V.step ht] at hw
  split at hw
  · cases hw
  · exact (Option.some.inj hw).symm

theorem Paced.bound?_eq (h : Paced c bound S test d strides) : test.bound? = some bound := by
  cases h <;> rfl

/-- A condition without a choice compares the counter with the bound. -/
theorem Paced.compares {t : Tree} (h : Paced c bound S (.plain t) d strides) :
    ∃ op, t = .binary op (counterTree c) bound := by
  cases h <;> exact ⟨_, rfl⟩

theorem Paced.holds (h : Paced c bound S test d strides) (hc : c ∈ names)
    (hbound : V.value τ bound = some b) (hS : V.stride σ S = some s)
    (hstrides : ∀ i ∈ strides, i.1 ∈ names ∧ V.value σ i.2 = some (τ i.1)) :
    V.holds τ test = some (if 0 < s then decide (τ c < b) else decide (b < τ c)) := by
  have hcounter : V.value τ (counterTree c) = some (τ c) := V.word hc τ
  have hless := holds_less hcounter hbound
  have hgreater := holds_greater hcounter hbound
  cases h with
  | one =>
    cases hS
    exact hless
  | @up t n hn hpos =>
    cases (hn V σ).symm.trans hS
    rw [if_pos hpos]
    exact hless
  | @down t n hn hneg =>
    cases (hn V σ).symm.trans hS
    rw [if_neg (by omega)]
    exact hgreater
  | either t w =>
    obtain ⟨hw, hstep⟩ := List.forall_mem_singleton.mp hstrides
    have hs : τ w = s := value_of_checked hS hstep
    have hstride : V.value τ (counterTree w) = some s := (V.word hw τ).trans (congrArg some hs)
    rw [holds_choose (V.greater hstride (zeroTree_stands V τ))]
    by_cases hpos : 0 < s
    · simpa only [hpos, if_true, ne_eq, Int.one_ne_zero, not_false_eq_true] using hless
    · simpa only [hpos, if_false, ne_eq, not_true_eq_false] using hgreater

/-- What is added after a pass is the step. -/
theorem Paced.stride_eq (h : Paced c bound S test d strides) (hS : V.stride σ S = some s)
    (hstrides : ∀ i ∈ strides, i.1 ∈ names ∧ V.value σ i.2 = some (τ i.1)) :
    V.stride τ d = some s := by
  cases h with
  | one => exact hS
  | up hn _ => exact (hn V τ).trans ((hn V σ).symm.trans hS)
  | down hn _ => exact (hn V τ).trans ((hn V σ).symm.trans hS)
  | either t w =>
    obtain ⟨hw, hstep⟩ := List.forall_mem_singleton.mp hstrides
    have hs : τ w = s := value_of_checked hS hstep
    exact (V.word hw τ).trans (congrArg some hs)

/-- A step of zero is a checked one, and all others have a value. -/
theorem Paced.values (h : Paced c bound S test d strides) (hS : V.stride σ S = some s) :
    if s = 0 then ∃ i ∈ strides, V.value σ i.2 = none
    else ∀ i ∈ strides, ∃ n, V.value σ i.2 = some n := by
  cases h with
  | one =>
    cases hS
    exact List.forall_mem_nil _
  | @up t n hn hpos =>
    cases (hn V σ).symm.trans hS
    rw [if_neg (by omega)]
    exact List.forall_mem_nil _
  | @down t n hn hneg =>
    cases (hn V σ).symm.trans hS
    rw [if_neg (by omega)]
    exact List.forall_mem_nil _
  | either t w =>
    have hstep := V.step hS
    split
    · next hs => exact ⟨_, List.mem_singleton_self _, hstep.trans (if_pos hs)⟩
    · next hs => exact List.forall_mem_singleton.mpr ⟨s, hstep.trans (if_neg hs)⟩

end Passes

namespace Header

variable {H : Header} {V : Valuation H.names} {body : Nat → Values → Values} {A B : Tree}
  {S : Option Tree} {σ : Values} {a b s : Int}

/-- The values after `k` passes: the counter has made as many steps, and the other variables of the
head are as they started. -/
structure Along (H : Header) (V : Valuation H.names) (σ : Values) (a s : Int) (k : Nat)
    (τ : Values) : Prop where
  counter : τ H.counter = a + k * s
  held : ∀ i ∈ H.inits.tail, V.value σ i.2 = some (τ i.1)

/-- What one pass keeps. -/
theorem Along.next {k : Nat} {τ : Values} (h : H.Along V σ a s k τ)
    (hbody : ∀ w ∈ H.names, body k τ w = τ w) (hcounter : H.counter ∈ H.names)
    (hapart : ∀ i ∈ H.inits.tail, i.1 ∈ H.names ∧ i.1 ≠ H.counter) :
    H.Along V σ a s (k + 1)
      (Function.update (body k τ) H.counter (body k τ H.counter + s)) where
  counter := by
    rw [Function.update_self, hbody _ hcounter, h.counter, Int.natCast_add, Int.add_mul]
    omega
  held := by
    intro i hi
    obtain ⟨hmem, hne⟩ := hapart i hi
    rw [Function.update_of_ne hne, hbody _ hmem]
    exact h.held i hi

theorem Visits.of_state {n : Nat} {x : Nat → Int}
    (h : ∀ k, ∃ τ, H.state V body σ k = some τ ∧ V.holds τ H.test = some (decide (k < n)) ∧
      τ H.counter = x k) : H.Visits V body σ ((List.range n).map x) := by
  constructor
  · intro k y hy
    obtain ⟨τ, hτ, hholds, hcounter⟩ := h k
    obtain ⟨hlt, rfl⟩ := List.getElem?_eq_some_iff.mp hy
    rw [List.length_map, List.length_range] at hlt
    exact ⟨τ, hτ, by rw [hholds, decide_eq_true hlt], by simpa using hcounter⟩
  · obtain ⟨τ, hτ, hholds, -⟩ := h n
    rw [List.length_map, List.length_range]
    exact ⟨τ, hτ, by rw [hholds, decide_eq_false (Nat.lt_irrefl n)]⟩

namespace CountsBy

variable {bound : Tree} {bounds strides : List (String × Tree)}
  (h : H.CountsBy A B S bound bounds strides)

include h

theorem counter_mem : (H.counter, A) ∈ H.inits := h.inits ▸ List.mem_cons_self

theorem counter_mem_names : H.counter ∈ H.names := List.mem_map_of_mem h.counter_mem

theorem tail_eq : H.inits.tail = bounds ++ strides := by rw [h.inits, List.tail_cons]

theorem stride_mem_tail {i : String × Tree} (hi : i ∈ strides) : i ∈ H.inits.tail :=
  h.tail_eq ▸ List.mem_append_right _ hi

theorem names_tail {i : String × Tree} (hi : i ∈ H.inits.tail) :
    i.1 ∈ H.names ∧ i.1 ≠ H.counter := by
  refine ⟨List.mem_map_of_mem (List.mem_of_mem_tail hi), ?_⟩
  have hapart := h.apart
  rw [h.inits] at hapart
  exact ((List.pairwise_cons.mp hapart).1 i (h.tail_eq ▸ hi)).1.symm

theorem declare_eq_none (hS : V.stride σ S = some 0) : V.declare σ H.inits = none := by
  obtain ⟨i, hi, hnone⟩ := h.paced.values hS
  exact h.apart.declare_eq_none ⟨i, List.mem_of_mem_tail (h.stride_mem_tail hi), hnone⟩

/-- What the variables of a head start from has values if the three expressions have. -/
theorem values (ha : V.value σ A = some a) (hb : V.value σ B = some b) (hS : V.stride σ S = some s)
    (hs : s ≠ 0) : ∀ i ∈ H.inits, ∃ n, V.value σ i.2 = some n := by
  have hstrides := h.paced.values hS
  rw [if_neg hs] at hstrides
  rw [h.inits]
  refine List.forall_mem_cons.mpr ⟨⟨a, ha⟩, List.forall_mem_append.mpr ⟨?_, hstrides⟩⟩
  cases h.bounded with
  | itself => exact List.forall_mem_nil _
  | held w => exact List.forall_mem_singleton.mpr ⟨b, hb⟩

/-- The invariant holds before every test, by induction on the number of passes. -/
theorem along (ha : V.value σ A = some a) (hb : V.value σ B = some b) (hS : V.stride σ S = some s)
    (hs : s ≠ 0) (hbody : ∀ k τ, ∀ w ∈ H.names, body k τ w = τ w) (k : Nat) :
    ∃ τ, H.state V body σ k = some τ ∧ H.Along V σ a s k τ := by
  induction k with
  | zero =>
    obtain ⟨τ, hτ, -, hdeclared⟩ := h.apart.declare (h.values ha hb hS hs)
    refine ⟨τ, hτ, ?_, fun i hi => hdeclared i (List.mem_of_mem_tail hi)⟩
    have hstart := hdeclared _ h.counter_mem
    rw [ha] at hstart
    simpa using (Option.some.inj hstart).symm
  | succ k ih =>
    obtain ⟨τ, hτ, hk⟩ := ih
    have hkept : ∀ i ∈ strides, i.1 ∈ H.names ∧ V.value σ i.2 = some (body k τ i.1) := by
      intro i hi
      have hname := (h.names_tail (h.stride_mem_tail hi)).1
      rw [hbody k τ _ hname]
      exact ⟨hname, hk.held i (h.stride_mem_tail hi)⟩
    refine ⟨_, ?_, hk.next (hbody k τ) h.counter_mem_names fun _ => h.names_tail⟩
    rw [state, hτ, Option.bind_some, h.paced.stride_eq hS hkept, Option.map_some]

/-- The value that the counter is compared with. -/
theorem value_bound {k : Nat} {τ : Values} (hb : V.value σ B = some b) (hk : H.Along V σ a s k τ)
    (hconst : H.HoldsBound B ∨ V.value τ B = some b) : V.value τ bound = some b := by
  have hheld : ∀ {w}, (w, B) ∈ H.inits.tail → V.value τ (counterTree w) = some b := by
    intro w hw
    rw [counterTree, V.word (h.names_tail hw).1, ← hk.held _ hw]
    exact hb
  obtain ⟨w, hw, hin⟩ | hconst := hconst
  · cases h.paced.bound?_eq.symm.trans hw
    exact hheld hin
  · have htail := h.tail_eq
    cases h.bounded with
    | itself => exact hconst
    | held w => exact hheld (htail ▸ List.mem_cons_self)

end CountsBy

/-- A head that counts visits the numbers of the range. -/
theorem Counts.ranges (h : H.Counts A B S) : H.Ranges A B S := by
  intro V body σ a b s ha hb hS hbody hconst
  obtain ⟨bound, bounds, strides, h⟩ := h
  constructor
  · rintro rfl
    exact h.declare_eq_none hS
  · intro hs
    rw [rangeValues]
    refine Visits.of_state fun k => ?_
    obtain ⟨τ, hτ, hk⟩ := h.along ha hb hS hs hbody k
    have hvalue := h.value_bound hb hk (hconst.imp_right fun hconst => hconst k τ hτ)
    have hholds := h.paced.holds h.counter_mem_names hvalue hS fun i hi =>
      ⟨(h.names_tail (h.stride_mem_tail hi)).1, hk.held i (h.stride_mem_tail hi)⟩
    refine ⟨τ, hτ, hholds.trans (congrArg some ?_), hk.counter⟩
    have hlength := lt_rangeLength_iff (a := a) (b := b) hs k
    rw [hk.counter]
    split
    · next hpos => exact decide_eq_decide.mpr (hlength.trans (by rw [if_pos hpos])).symm
    · next hneg => exact decide_eq_decide.mpr (hlength.trans (by rw [if_neg hneg])).symm

end Header

/-! ## An interpretation -/

/-- The number of a literal. Its digits may be marked as those of a wide one. -/
def numeral? (s : String) : Option Int :=
  if s.toList.dropWhile Char.isDigit ∈ [[], "LL".toList] then
    some (Nat.ofDigitChars 10 (s.toList.takeWhile Char.isDigit) 0)
  else none

theorem numeral?_intLiteral {n : Int} (h : 0 ≤ n) : numeral? (intLiteral n) = some n := by
  have hdigits : (Nat.toDigits 10 n.toNat).all Char.isDigit = true :=
    List.all_eq_true.mpr fun c hc => isDigit_of_mem_toDigits hc
  have htail : ∃ tail ∈ [[], "LL".toList],
      (intLiteral n).toList = Nat.toDigits 10 n.toNat ++ tail := by
    unfold intLiteral
    split
    · exact ⟨[], by simp, by rw [toList_toString_of_nonneg h, List.append_nil]⟩
    · exact ⟨"LL".toList, by simp, by rw [String.toList_append, toList_toString_of_nonneg h]⟩
  obtain ⟨tail, hmem, htext⟩ := htail
  have hhead : tail.head?.all (!Char.isDigit ·) = true := by
    simp only [List.mem_cons, List.not_mem_nil, or_false] at hmem
    obtain rfl | rfl := hmem <;> decide
  obtain ⟨htake, hdrop⟩ := takeWhile_append_of_all hdigits hhead
  rw [numeral?, htext, hdrop, htake, if_pos hmem, Nat.ofDigitChars_ten_toDigits]
  exact congrArg some (Int.toNat_of_nonneg h)

def compare? (op : String) (a b : Int) : Option Int :=
  if op = "<" then some (if a < b then 1 else 0)
  else if op = ">" then some (if b < a then 1 else 0)
  else if op = "==" then some (if a = b then 1 else 0)
  else none

/-- The value of an expression that is made of integers, signs and comparisons. -/
def Tree.integer (σ : Values) : Tree → Option Int
  | .atom (.word w) => some (σ w)
  | .atom (.number s) => numeral? s
  | .prefixed op t =>
    if op = "+" then t.integer σ else if op = "-" then (t.integer σ).map (- ·) else none
  | .binary op l r => (l.integer σ).bind fun a => (r.integer σ).bind (compare? op a)
  | .call (.atom (.word w)) [t] =>
    if w = "py_step" then (t.integer σ).filter (· ≠ 0) else none
  | _ => none

theorem Tree.integer_congr {σ τ : Values} {t : Tree} (h : ∀ w ∈ t.words, σ w = τ w) :
    t.integer σ = t.integer τ := by
  fun_induction Tree.integer σ t with
  | case1 w => exact congrArg some (h w (List.mem_singleton_self w))
  | case2 s => rfl
  | case3 t ih => exact (ih h).trans (if_pos rfl).symm
  | case4 t _ ih => rw [ih h]; rfl
  | case5 op t hplus hminus => rw [Tree.integer, if_neg hplus, if_neg hminus]
  | case6 op l r ihl ihr =>
    obtain ⟨hl, hr⟩ := List.forall_mem_append.mp h
    rw [Tree.integer, ihl hl, ihr hr]
  | case7 t ih =>
    rw [Tree.integer, if_pos rfl, ih fun w hw => h w (List.mem_append_left _ hw)]
  | case8 w t hw => rw [Tree.integer, if_neg hw]
  | case9 t _ _ _ _ _ => rw [Tree.integer] <;> assumption

/-- Integers, signs and comparisons. Nothing else has a value. -/
def Valuation.exact (names : List String) : Valuation names where
  value := Tree.integer
  congr := Tree.integer_congr
  word := fun _ _ => rfl
  literal := fun hn _ => numeral?_intLiteral hn
  plus := fun _ _ => rfl
  minus := fun _ _ => rfl
  less := fun hl hr => by rw [Tree.integer, hl, hr]; rfl
  greater := fun hl hr => by rw [Tree.integer, hl, hr]; rfl
  step := fun ht => by
    rw [calling, Tree.integer, if_pos rfl, ht]
    split <;> simp_all [Option.filter]

end Cpp

end Braces
