import Braces.Proofs.Running.Footprint

/-!
# Lists in a store

A value is a scalar, or the place of a list of scalars in a store. Operators look at the contents of
their operands, and a list that they make gets a place of its own. A store to an element changes one
element of one list. So a run may change the elements of a list, also through another name or within
a call, but a list never goes away and never changes its length.
-/

namespace Braces

/-- A value: a scalar, or the place of a list. -/
inductive Datum (S : Type) where
  | scalar (s : S)
  | list (place : Nat)
  deriving DecidableEq, Repr

/-- What a value stands for. -/
inductive Content (S : Type) where
  | scalar (s : S)
  | list (elements : List S)
  deriving DecidableEq, Repr

variable {S : Type}

namespace Datum

/-- The content of a value, unless its list is missing. -/
def content? (h : List (List S)) : Datum S → Option (Content S)
  | .scalar s => some (.scalar s)
  | .list place => h[place]?.map .list

def scalar? : Datum S → Option S
  | .scalar s => some s
  | .list _ => none

/-- Lists that are added do not change what a value stands for. -/
theorem content?_of_isPrefix {h h' : List (List S)} (hh : h <+: h') {v : Datum S} {c : Content S}
    (hc : v.content? h = some c) : v.content? h' = some c := by
  cases v with
  | scalar s => exact hc
  | list place =>
    obtain ⟨xs, hxs, rfl⟩ := Option.map_eq_some_iff.1 hc
    obtain ⟨more, rfl⟩ := hh
    have hlt : place < h.length := (List.getElem?_eq_some_iff.1 hxs).1
    rw [content?, List.getElem?_append_left hlt, hxs]
    rfl

end Datum

namespace Content

/-- A value with the given content. A list gets a new place. -/
def alloc (h : List (List S)) : Content S → Datum S × List (List S)
  | .scalar s => (.scalar s, h)
  | .list elements => (.list h.length, h ++ [elements])

theorem content?_alloc (h : List (List S)) (c : Content S) :
    (c.alloc h).1.content? (c.alloc h).2 = some c := by
  cases c with
  | scalar s => rfl
  | list elements => simp [alloc, Datum.content?]

theorem isPrefix_alloc (h : List (List S)) (c : Content S) : h <+: (c.alloc h).2 := by
  cases c with
  | scalar s => exact List.prefix_rfl
  | list elements => exact List.prefix_append h [elements]

theorem isPrefix_of_alloc_eq {c : Content S} {v : Datum S} {h h' : List (List S)}
    (heq : c.alloc h = (v, h')) : h <+: h' := by
  have hadded := c.isPrefix_alloc h
  rwa [heq] at hadded

end Content

/-! ## Operations -/

/-- Scalars and what can be done with them. An operation without a result raises an error. -/
structure Arithmetic (S : Type) where
  int : Int → S
  float : Double → S
  str : String → S
  bool : Bool → S
  none : S
  truth : S → Bool
  text : S → String
  binary : BinOp → S → S → Option S
  signed : UnOp → S → Option S
  length : S → Option S
  element : S → S → Option S
  /-- What a loop over a scalar finds at a place. -/
  walked : S → Nat → Option (Option S)
  range : S → S → S → Option (List S)
  /-- How often a list is repeated. -/
  count : S → Option Nat
  /-- The place that an index means in a list of the given length. -/
  place : S → Nat → Option Nat
  /-- How lists compare, by their elements. -/
  compare : BinOp → List S → List S → Option S
  listText : List S → String
  truth_bool : ∀ b, truth (bool b) = b
  equal_str : ∀ a b, binary .equal (str a) (str b) = some (bool (a = b))

namespace Arithmetic

variable (A : Arithmetic S)

/-- A list and a scalar: the list is repeated, or they are different. -/
def mix (op : BinOp) (elements : List S) (s : S) : Option (Content S) :=
  match op with
  | .mul => (A.count s).map fun k => .list (List.replicate k elements).flatten
  | .equal => some (.scalar (A.bool false))
  | .notEqual => some (.scalar (A.bool true))
  | _ => Option.none

/-- Operators other than the logical ones. -/
def combine (op : BinOp) : Content S → Content S → Option (Content S)
  | .scalar s, .scalar t => (A.binary op s t).map .scalar
  | .list xs, .list ys =>
    if op.isComparison then (A.compare op xs ys).map .scalar
    else if op = .add then some (.list (xs ++ ys))
    else Option.none
  | .list xs, .scalar s | .scalar s, .list xs => A.mix op xs s

def truthOf : Content S → Bool
  | .scalar s => A.truth s
  | .list xs => !xs.isEmpty

def textOf : Content S → String
  | .scalar s => A.text s
  | .list xs => A.listText xs

def sign (op : UnOp) : Content S → Option (Content S)
  | .scalar s => (A.signed op s).map .scalar
  | .list _ => Option.none

def lengthOf : Content S → Option S
  | .scalar s => A.length s
  | .list xs => some (A.int xs.length)

def elementOf (position : S) : Content S → Option S
  | .scalar s => A.element s position
  | .list xs => (A.place position xs.length).bind fun i => xs[i]?

def walkedOf (i : Nat) : Content S → Option (Option S)
  | .scalar s => A.walked s i
  | .list xs => some xs[i]?

/-- Changes one element of one list. -/
def storeAt (target position value : Datum S) (h : List (List S)) : Option (List (List S)) :=
  match target, position, value with
  | .list place, .scalar p, .scalar s =>
    h[place]?.bind fun xs => (A.place p xs.length).bind fun i =>
      if i < xs.length then some (h.set place (xs.set i s)) else Option.none
  | _, _, _ => Option.none

/-- Values in a store. Lists hold scalars: there is no list of lists. -/
def runtime : Runtime (Datum S) (List (List S)) where
  int n := .scalar (A.int n)
  float x := .scalar (A.float x)
  str s := .scalar (A.str s)
  bool b := .scalar (A.bool b)
  none := .scalar A.none
  truth v h := ((v.content? h).map A.truthOf).getD false
  text v h := ((v.content? h).map A.textOf).getD ""
  binary op v w h :=
    (v.content? h).bind fun c => (w.content? h).bind fun d =>
      (A.combine op c d).map (Content.alloc h)
  signed op v h := (v.content? h).bind fun c => (A.sign op c).map (Content.alloc h)
  list vs h := ((vs.mapM Datum.scalar?).map (Content.alloc h ∘ .list)).getD (.scalar A.none, h)
  range a b step h :=
    a.scalar?.bind fun s => b.scalar?.bind fun t => step.scalar?.bind fun u =>
      (A.range s t u).map (Content.alloc h ∘ .list)
  length v h := (v.content? h).bind fun c => (A.lengthOf c).map .scalar
  element v i h :=
    (v.content? h).bind fun c => i.scalar?.bind fun p => (A.elementOf p c).map .scalar
  storeAt := A.storeAt
  walked v i h := (v.content? h).bind fun c => (A.walkedOf i c).map (Option.map .scalar)
  truth_bool b h := A.truth_bool b
  equal_str a b h := by
    simp [Datum.content?, combine, A.equal_str, Content.alloc]

end Arithmetic

/-! ## Lengths -/

/-- Lists stay where they are, and keep their lengths. -/
def lengths : Growth (List (List S)) where
  rel h h' := ∀ (place : Nat) (xs : List S), h[place]? = some xs →
    ∃ ys : List S, h'[place]? = some ys ∧ ys.length = xs.length
  refl h place xs hxs := ⟨xs, hxs, rfl⟩
  trans hh hh' place xs hxs := by
    obtain ⟨ys, hys, hlen⟩ := hh place xs hxs
    obtain ⟨zs, hzs, hlen'⟩ := hh' place ys hys
    exact ⟨zs, hzs, hlen'.trans hlen⟩

theorem lengths_of_isPrefix {h h' : List (List S)} (hh : h <+: h') : lengths.rel h h' := by
  intro place xs hxs
  obtain ⟨more, rfl⟩ := hh
  have hlt : place < h.length := (List.getElem?_eq_some_iff.1 hxs).1
  exact ⟨xs, by rw [List.getElem?_append_left hlt, hxs], rfl⟩

/-- A list that takes the place of one of the same length. -/
theorem lengths_set {h : List (List S)} {place : Nat} {xs ys : List S} (hxs : h[place]? = some xs)
    (hlen : ys.length = xs.length) : lengths.rel h (h.set place ys) := by
  intro other zs hzs
  rw [List.getElem?_set]
  split
  · next heq =>
    subst heq
    have hsame : xs = zs := Option.some.inj (hxs.symm.trans hzs)
    rw [if_pos (List.getElem?_eq_some_iff.1 hxs).1]
    exact ⟨ys, rfl, hsame ▸ hlen⟩
  · exact ⟨zs, hzs, rfl⟩

theorem Arithmetic.lengths_storeAt (A : Arithmetic S) {target position value : Datum S}
    {h h' : List (List S)} (hstore : A.storeAt target position value h = some h') :
    lengths.rel h h' := by
  unfold Arithmetic.storeAt at hstore
  split at hstore
  · obtain ⟨xs, hxs, hstore⟩ := Option.bind_eq_some_iff.1 hstore
    obtain ⟨i, -, hstore⟩ := Option.bind_eq_some_iff.1 hstore
    split at hstore
    · cases hstore
      exact lengths_set hxs List.length_set
    · cases hstore
  · cases hstore

/-! ## Operations that add lists -/

namespace Arithmetic

variable (A : Arithmetic S) {h h' : List (List S)} {u : Datum S}

theorem isPrefix_binary {op : BinOp} {v w : Datum S}
    (heq : A.runtime.binary op v w h = some (u, h')) :
    h <+: h' := by
  obtain ⟨c, -, heq⟩ := Option.bind_eq_some_iff.1 heq
  obtain ⟨d, -, heq⟩ := Option.bind_eq_some_iff.1 heq
  obtain ⟨e, -, heq⟩ := Option.map_eq_some_iff.1 heq
  exact Content.isPrefix_of_alloc_eq heq

theorem isPrefix_signed {op : UnOp} {v : Datum S} (heq : A.runtime.signed op v h = some (u, h')) :
    h <+: h' := by
  obtain ⟨c, -, heq⟩ := Option.bind_eq_some_iff.1 heq
  obtain ⟨e, -, heq⟩ := Option.map_eq_some_iff.1 heq
  exact Content.isPrefix_of_alloc_eq heq

theorem isPrefix_list (vs : List (Datum S)) (h : List (List S)) :
    h <+: (A.runtime.list vs h).2 := by
  change h <+: (((vs.mapM Datum.scalar?).map (Content.alloc h ∘ .list)).getD _).2
  cases vs.mapM Datum.scalar? with
  | none => exact List.prefix_rfl
  | some xs => exact (Content.list xs).isPrefix_alloc h

theorem isPrefix_range {a b step : Datum S} (heq : A.runtime.range a b step h = some (u, h')) :
    h <+: h' := by
  obtain ⟨s, -, heq⟩ := Option.bind_eq_some_iff.1 heq
  obtain ⟨t, -, heq⟩ := Option.bind_eq_some_iff.1 heq
  obtain ⟨stride, -, heq⟩ := Option.bind_eq_some_iff.1 heq
  obtain ⟨xs, -, heq⟩ := Option.map_eq_some_iff.1 heq
  exact Content.isPrefix_of_alloc_eq heq

/-- No operation changes the length of a list. -/
theorem grows : A.runtime.Grows lengths where
  binary heq := lengths_of_isPrefix (A.isPrefix_binary heq)
  signed heq := lengths_of_isPrefix (A.isPrefix_signed heq)
  list vs h := lengths_of_isPrefix (A.isPrefix_list vs h)
  range heq := lengths_of_isPrefix (A.isPrefix_range heq)
  storeAt heq := A.lengths_storeAt heq

end Arithmetic

end Braces
