import Braces.Proofs.Reading.Tokens
import Braces.Proofs.Syntax.Phrases

/-!
# Expressions that are read from tokens

What tokens with written forms spell is made of literals and names with written forms, and of nodes
as the readers build them: a range has an end, no call bears the name of a node of its own, and a
sum has text on both sides or on none.
-/

namespace Braces

namespace Expr

/-- Whether the root of an expression is one that is read from text. -/
def isProper : Expr → Bool
  | .int n => 0 ≤ n
  | .float x => x.isWritten
  | .str s => Cpp.isClosed s.toList
  | .var name => Cpp.isName name
  | .call name _ => Cpp.isName name && name ≠ Builtin.len.name && name ≠ Builtin.range.name
  | .range _ stop _ => stop.isSome
  | .binary .add l r => l.isTextual = r.isTextual
  | _ => true

theorem isWritten_of_isProper {e : Expr} (h : e.isProper = true) : e.isWritten = true := by
  cases e with
  | call name args =>
    simp only [isProper, Bool.and_eq_true] at h
    exact h.1.1
  | int | float | str | var => exact h
  | _ => rfl

/-- Expressions that are read, at any depth. -/
def Proper (e : Expr) : Prop := ∀ e' ∈ e.parts, e'.isProper = true

def AllProper (es : List Expr) : Prop := ∀ e ∈ partsOf es, e.isProper = true

section
variable {op : BinOp} {sign : UnOp} {name : String} {e l r target position start : Expr}
  {es : List Expr} {stop step : Option Expr}

@[simp] theorem proper_int {n : Int} : (Expr.int n).Proper ↔ 0 ≤ n :=
  List.forall_mem_singleton.trans decide_eq_true_iff

@[simp] theorem proper_float {x : Double} : (Expr.float x).Proper ↔ x.isWritten = true :=
  List.forall_mem_singleton

@[simp] theorem proper_str {s : String} : (Expr.str s).Proper ↔ Cpp.isClosed s.toList = true :=
  List.forall_mem_singleton

@[simp] theorem proper_bool {b : Bool} : (Expr.bool b).Proper :=
  List.forall_mem_singleton.mpr rfl

@[simp] theorem proper_var : (Expr.var name).Proper ↔ Cpp.isName name = true :=
  List.forall_mem_singleton

theorem isProper_binary :
    (Expr.binary op l r).isProper = true ↔ (op = .add → l.isTextual = r.isTextual) := by
  by_cases hop : op = .add
  · subst hop
    exact decide_eq_true_iff.trans ⟨fun h _ => h, fun h => h rfl⟩
  · have hroot : (Expr.binary op l r).isProper = true := by
      cases op <;> first | rfl | contradiction
    exact ⟨fun _ h => absurd h hop, fun _ => hroot⟩

@[simp] theorem proper_binary : (Expr.binary op l r).Proper ↔
    (op = .add → l.isTextual = r.isTextual) ∧ l.Proper ∧ r.Proper :=
  List.forall_mem_cons.trans (and_congr isProper_binary List.forall_mem_append)

@[simp] theorem proper_unary : (Expr.unary sign e).Proper ↔ e.Proper :=
  List.forall_mem_cons.trans (and_iff_right rfl)

@[simp] theorem proper_list : (Expr.list es).Proper ↔ AllProper es :=
  List.forall_mem_cons.trans (and_iff_right rfl)

@[simp] theorem proper_index :
    (Expr.index target position).Proper ↔ target.Proper ∧ position.Proper :=
  List.forall_mem_cons.trans ((and_iff_right rfl).trans List.forall_mem_append)

theorem isProper_call : (Expr.call name es).isProper = true ↔
    Cpp.isName name = true ∧ name ≠ "len" ∧ name ≠ "range" := by
  simp only [isProper, Bool.and_eq_true, decide_eq_true_eq, and_assoc]
  exact Iff.rfl

@[simp] theorem proper_call : (Expr.call name es).Proper ↔
    (Cpp.isName name = true ∧ name ≠ "len" ∧ name ≠ "range") ∧ AllProper es :=
  List.forall_mem_cons.trans (and_congr_left' isProper_call)

@[simp] theorem proper_len : (Expr.len e).Proper ↔ e.Proper :=
  List.forall_mem_cons.trans (and_iff_right rfl)

theorem forall_mem_partsOfOption {o : Option Expr} :
    (∀ e ∈ partsOfOption o, e.isProper = true) ↔ ∀ e ∈ o, e.Proper := by
  cases o with
  | none => exact ⟨fun _ => nofun, fun _ => List.forall_mem_nil _⟩
  | some e =>
    constructor
    · rintro h _ ⟨⟩
      exact h
    · intro h
      exact h e rfl

@[simp] theorem proper_range : (Expr.range start stop step).Proper ↔
    stop.isSome = true ∧ start.Proper ∧ (∀ e ∈ stop, e.Proper) ∧ ∀ e ∈ step, e.Proper := by
  rw [← forall_mem_partsOfOption, ← forall_mem_partsOfOption, Proper, parts, List.forall_mem_cons,
    List.forall_mem_append, List.forall_mem_append]
  exact Iff.rfl

@[simp] theorem allProper_nil : AllProper [] := List.forall_mem_nil _

@[simp] theorem allProper_cons : AllProper (e :: es) ↔ e.Proper ∧ AllProper es :=
  List.forall_mem_append

end

theorem isTextual_toText (e : Expr) : e.toText.isTextual = true := by
  unfold Expr.toText
  split
  · assumption
  · rfl

theorem Proper.toText {e : Expr} (h : e.Proper) : e.toText.Proper := by
  unfold Expr.toText
  split
  · exact h
  · simp only [proper_call, allProper_cons, h, allProper_nil, and_true]
    decide

theorem Proper.combine {op : BinOp} {l r : Expr} (hl : l.Proper) (hr : r.Proper) :
    (Expr.combine op l r).Proper := by
  unfold Expr.combine
  split
  · have htextual : l.toText.isTextual = r.toText.isTextual := by
      rw [isTextual_toText, isTextual_toText]
    exact proper_binary.mpr ⟨fun _ => htextual, hl.toText, hr.toText⟩
  · next hnone =>
    refine proper_binary.mpr ⟨fun hop => ?_, hl, hr⟩
    have hneither : l.isTextual = false ∧ r.isTextual = false := by
      simpa [hop] using hnone
    rw [hneither.1, hneither.2]

end Expr

/-! ## Phrases -/

theorem forall_mem_bracketed {P : Kind → Prop} {left right : Kind} {ks : List Kind}
    (h : ∀ k ∈ left :: (ks ++ [right]), P k) : ∀ k ∈ ks, P k :=
  (List.forall_mem_append.mp (List.forall_mem_cons.mp h).2).1

mutual

theorem Phrase.proper : ∀ {n : Nat} {ks : List Kind} {e : Expr}, Phrase n ks e →
    (∀ k ∈ ks, k.isWritten = true) → e.Proper
  | _, _, _, .tighter _ h, hks => h.proper hks
  | _, _, _, .binary hl hr, hks => by
    obtain ⟨hks, hks'⟩ := List.forall_mem_append.mp hks
    exact (hl.proper hks).combine (hr.proper (List.forall_mem_cons.mp hks').2)
  | _, _, _, .not h, hks | _, _, _, .plus h, hks | _, _, _, .minus h, hks =>
    Expr.proper_unary.mpr (h.proper (List.forall_mem_cons.mp hks).2)
  | _, _, _, .index ht hi, hks => by
    obtain ⟨hks, hks'⟩ := List.forall_mem_append.mp hks
    exact Expr.proper_index.mpr ⟨ht.proper hks, hi.proper (forall_mem_bracketed hks')⟩
  | _, _, _, .int n, hks => by simpa [Kind.isWritten] using hks
  | _, _, _, .float x, hks => by simpa [Kind.isWritten] using hks
  | _, _, _, .str s, hks => by simpa [Kind.isWritten] using hks
  | _, _, _, .bool b, _ => Expr.proper_bool
  | _, _, _, .var name, hks => by simpa [Kind.isWritten] using hks
  | _, _, _, .group h, hks => h.proper (forall_mem_bracketed hks)
  | _, _, _, .list hs, hks => Expr.proper_list.mpr (hs.proper (forall_mem_bracketed hks))
  | _, _, _, .call hlen hrange hs, hks => by
    obtain ⟨hname, hks⟩ := List.forall_mem_cons.mp hks
    exact Expr.proper_call.mpr ⟨⟨hname, hlen, hrange⟩, hs.proper (forall_mem_bracketed hks)⟩
  | _, _, _, .len hs, hks => by
    have hargs := hs.proper (forall_mem_bracketed (List.forall_mem_cons.mp hks).2)
    simpa using hargs
  | _, _, _, .rangeTo hs, hks => by
    have hargs := hs.proper (forall_mem_bracketed (List.forall_mem_cons.mp hks).2)
    simpa using hargs
  | _, _, _, .rangeFrom hs, hks => by
    have hargs := hs.proper (forall_mem_bracketed (List.forall_mem_cons.mp hks).2)
    simpa using hargs
  | _, _, _, .rangeBy hs, hks => by
    have hargs := hs.proper (forall_mem_bracketed (List.forall_mem_cons.mp hks).2)
    simpa using hargs

theorem Phrases.proper : ∀ {ks : List Kind} {es : List Expr}, Phrases ks es →
    (∀ k ∈ ks, k.isWritten = true) → Expr.AllProper es
  | _, _, .none, _ => Expr.allProper_nil
  | _, _, .last h, hks => Expr.allProper_cons.mpr ⟨h.proper hks, Expr.allProper_nil⟩
  | _, _, .more h hs, hks => by
    obtain ⟨hks, hks'⟩ := List.forall_mem_append.mp hks
    exact Expr.allProper_cons.mpr
      ⟨h.proper hks, hs.proper (List.forall_mem_cons.mp hks').2⟩

end

end Braces
