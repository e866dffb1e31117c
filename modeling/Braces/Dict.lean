/-!
# Dictionaries ordered by name

Finite maps from names, listed in the code point order of the names. Only `insert` adds entries, and
it keeps the order (`Ordered`); the look-up law holds of any list of entries.
-/

namespace Braces

structure Dict (α : Type) where
  entries : List (String × α)
  deriving DecidableEq, Repr, Inhabited

namespace Dict

variable {α β : Type}

def empty : Dict α := ⟨[]⟩

private def lookupEntry (name : String) : List (String × α) → Option α
  | [] => none
  | (k, v) :: rest => if k = name then some v else lookupEntry name rest

def get? (d : Dict α) (name : String) : Option α := lookupEntry name d.entries

def keys (d : Dict α) : List String := d.entries.map (·.1)

private def insertEntry (name : String) (value : α) : List (String × α) → List (String × α)
  | [] => [(name, value)]
  | (k, v) :: rest =>
    if name < k then (name, value) :: (k, v) :: rest
    else if name = k then (name, value) :: rest
    else (k, v) :: insertEntry name value rest

/-- Puts a value under a name, in place of one that is there. -/
def insert (d : Dict α) (name : String) (value : α) : Dict α :=
  ⟨insertEntry name value d.entries⟩

/-- A later entry wins over an earlier one of the same name. -/
def ofList (entries : List (String × α)) : Dict α :=
  entries.foldl (fun d e => d.insert e.1 e.2) empty

private theorem lookupEntry_insertEntry (name : String) (value : α) (es : List (String × α))
    (k : String) :
    lookupEntry k (insertEntry name value es) =
      if k = name then some value else lookupEntry k es := by
  induction es with
  | nil => simp [insertEntry, lookupEntry, eq_comm]
  | cons e rest ih =>
    obtain ⟨k', v⟩ := e
    simp only [insertEntry]
    split
    · simp [lookupEntry, eq_comm]
    · split
      · next h =>
        subst h
        by_cases h : name = k
        · simp [lookupEntry, h]
        · simp [lookupEntry, h, Ne.symm h]
      · next hne =>
        by_cases h : k' = k
        · subst h
          simp [lookupEntry, Ne.symm hne]
        · simp [lookupEntry, ih, h]

@[simp] theorem get?_insert (d : Dict α) (name : String) (value : α) (k : String) :
    (d.insert name value).get? k = if k = name then some value else d.get? k :=
  lookupEntry_insertEntry name value d.entries k

@[simp] theorem get?_empty (k : String) : (empty : Dict α).get? k = none := rfl

/-! ## Order -/

/-- The names ascend, so each has one entry. -/
def Ordered (d : Dict α) : Prop := d.keys.Pairwise (· < ·)

private theorem mem_insertEntry {name : String} {value : α} {es : List (String × α)}
    {e : String × α} (h : e ∈ insertEntry name value es) : e = (name, value) ∨ e ∈ es := by
  induction es with
  | nil => exact .inl (List.mem_singleton.mp h)
  | cons e' rest ih =>
    simp only [insertEntry] at h
    split at h
    · exact List.mem_cons.mp h
    · split at h
      · rcases List.mem_cons.mp h with h | h
        · exact .inl h
        · exact .inr (List.mem_cons_of_mem _ h)
      · rcases List.mem_cons.mp h with h | h
        · exact .inr (h ▸ List.mem_cons_self)
        · exact (ih h).imp_right (List.mem_cons_of_mem _)

private theorem ordered_insertEntry (name : String) (value : α) (es : List (String × α))
    (h : es.Pairwise (·.1 < ·.1)) : (insertEntry name value es).Pairwise (·.1 < ·.1) := by
  induction es with
  | nil => exact List.pairwise_singleton _ _
  | cons e rest ih =>
    obtain ⟨hhead, hrest⟩ := List.pairwise_cons.mp h
    simp only [insertEntry]
    split
    · next hlt =>
      refine List.pairwise_cons.mpr ⟨?_, h⟩
      intro e' he'
      rcases List.mem_cons.mp he' with rfl | he'
      · exact hlt
      · exact String.lt_trans hlt (hhead e' he')
    · next hnlt =>
      split
      · next heq =>
        subst heq
        exact List.pairwise_cons.mpr ⟨hhead, hrest⟩
      · next hne =>
        refine List.pairwise_cons.mpr ⟨?_, ih hrest⟩
        intro e' he'
        rcases mem_insertEntry he' with rfl | he'
        · refine Decidable.byContradiction fun hn => hne ?_
          exact String.le_antisymm (String.not_lt.mp hn) (String.not_lt.mp hnlt)
        · exact hhead e' he'

theorem ordered_empty : (empty : Dict α).Ordered := List.Pairwise.nil

theorem Ordered.insert {d : Dict α} (h : d.Ordered) (name : String) (value : α) :
    (d.insert name value).Ordered :=
  List.pairwise_map.mpr (ordered_insertEntry name value d.entries (List.pairwise_map.mp h))

theorem ordered_ofList (entries : List (String × α)) : (ofList entries).Ordered := by
  suffices h : ∀ d : Dict α, d.Ordered →
      (entries.foldl (fun d e => d.insert e.1 e.2) d).Ordered from h _ ordered_empty
  intro d hd
  induction entries generalizing d with
  | nil => exact hd
  | cons e rest ih => exact ih _ (hd.insert e.1 e.2)

theorem mem_ofList {entries : List (String × α)} {e : String × α}
    (h : e ∈ (ofList entries).entries) : e ∈ entries := by
  suffices hd : ∀ d : Dict α, e ∈ (entries.foldl (fun d e => d.insert e.1 e.2) d).entries →
      e ∈ d.entries ∨ e ∈ entries from (hd empty h).resolve_left nofun
  intro d hd
  clear h
  induction entries generalizing d with
  | nil => exact .inl hd
  | cons e' rest ih =>
    rcases ih _ hd with h | h
    · exact (mem_insertEntry h).elim (fun he => .inr (he ▸ List.mem_cons_self)) .inl
    · exact .inr (List.mem_cons_of_mem _ h)

theorem Ordered.nodup {d : Dict α} (h : d.Ordered) : d.keys.Nodup := by
  refine List.Pairwise.imp ?_ h
  rintro a b hlt rfl
  exact String.lt_irrefl a hlt

private theorem mem_of_lookupEntry {es : List (String × α)} {k : String} {v : α}
    (h : lookupEntry k es = some v) : (k, v) ∈ es := by
  induction es with
  | nil => cases h
  | cons e rest ih =>
    simp only [lookupEntry] at h
    split at h
    · next heq =>
      cases h
      exact heq ▸ List.mem_cons_self
    · exact List.mem_cons_of_mem _ (ih h)

theorem mem_of_get? {d : Dict α} {k : String} {v : α} (h : d.get? k = some v) :
    (k, v) ∈ d.entries :=
  mem_of_lookupEntry h

private theorem lookupEntry_eq_some_iff {es : List (String × α)} (h : (es.map (·.1)).Nodup)
    {k : String} {v : α} : lookupEntry k es = some v ↔ (k, v) ∈ es := by
  refine ⟨mem_of_lookupEntry, fun hm => ?_⟩
  induction es with
  | nil => cases hm
  | cons e rest ih =>
    obtain ⟨hk, hrest⟩ := List.nodup_cons.mp h
    rcases List.mem_cons.mp hm with rfl | hm
    · exact if_pos rfl
    · have hne : e.1 ≠ k := fun heq => hk (List.mem_map.mpr ⟨_, hm, heq.symm⟩)
      exact (if_neg hne).trans (ih hrest hm)

theorem get?_eq_some_iff {d : Dict α} (h : d.keys.Nodup) {k : String} {v : α} :
    d.get? k = some v ↔ (k, v) ∈ d.entries :=
  lookupEntry_eq_some_iff h

private theorem insertEntry_eq_self {es : List (String × α)} (h : es.Pairwise (·.1 < ·.1))
    {name : String} {value : α} (hm : (name, value) ∈ es) : insertEntry name value es = es := by
  induction es with
  | nil => cases hm
  | cons e rest ih =>
    obtain ⟨hhead, hrest⟩ := List.pairwise_cons.mp h
    rcases List.mem_cons.mp hm with rfl | hm
    · simp [insertEntry]
    · have hlt : e.1 < name := hhead _ hm
      have hne : name ≠ e.1 := fun heq => String.lt_irrefl name (heq ▸ hlt)
      have hnlt : ¬ name < e.1 := fun hgt => String.lt_irrefl name (String.lt_trans hgt hlt)
      simp only [insertEntry, if_neg hnlt, if_neg hne, ih hrest hm]

/-- What is there already is put in its place. -/
theorem Ordered.insert_eq_self {d : Dict α} (h : d.Ordered) {name : String} {value : α}
    (hget : d.get? name = some value) : d.insert name value = d := by
  cases d with
  | mk entries =>
    exact congrArg Dict.mk (insertEntry_eq_self (List.pairwise_map.mp h) (mem_of_get? hget))

end Dict

end Braces
