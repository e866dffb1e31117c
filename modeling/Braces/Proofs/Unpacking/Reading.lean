import Braces.Proofs.Spelling
import Braces.Proofs.Syntax.Statements
import Braces.Proofs.Unpacking.Sentences

/-!
# Sentences that are read

Whatever is read is spelled by sentences, with their tuple assignments taken apart. The variables in
between are numbered upwards through the whole text, and numbers are left out whose variables occur
in it.
-/

namespace Braces

/-! ## Variables in between -/

theorem tempName_inj {n m : Nat} (h : tempName n = tempName m) : n = m := by
  have hl := congrArg String.toList h
  simp only [tempName, toString, Nat.repr, String.toList_append, List.append_cancel_left_eq,
    String.toList_ofList] at hl
  exact Cpp.toDigits_inj hl

/-- Variables that are numbered upwards, from one number to before another, and are not taken. -/
structure Fresh (taken : List String) (n m : Nat) (xs : List String) : Prop where
  le : n ≤ m
  numbered : ∃ ks : List Nat, xs = ks.map tempName ∧ ks.Pairwise (· < ·) ∧ ∀ k ∈ ks, n ≤ k ∧ k < m
  free : ∀ x ∈ xs, x ∉ taken

namespace Fresh

variable {taken : List String} {n m l : Nat} {xs ys : List String}

theorem nil (n : Nat) : Fresh taken n n [] :=
  ⟨Nat.le_refl n, ⟨[], rfl, .nil, List.forall_mem_nil _⟩, List.forall_mem_nil _⟩

theorem append (h : Fresh taken n m xs) (h' : Fresh taken m l ys) : Fresh taken n l (xs ++ ys) := by
  obtain ⟨ks, rfl, hks, hbounds⟩ := h.numbered
  obtain ⟨ks', rfl, hks', hbounds'⟩ := h'.numbered
  refine ⟨h.le.trans h'.le, ⟨ks ++ ks', List.map_append.symm, ?_, ?_⟩, ?_⟩
  · refine List.pairwise_append.2 ⟨hks, hks', fun k hk k' hk' => ?_⟩
    exact Nat.lt_of_lt_of_le (hbounds k hk).2 (hbounds' k' hk').1
  · intro k hk
    obtain hk | hk := List.mem_append.1 hk
    · exact ⟨(hbounds k hk).1, Nat.lt_of_lt_of_le (hbounds k hk).2 h'.le⟩
    · exact ⟨Nat.le_trans h.le (hbounds' k hk).1, (hbounds' k hk).2⟩
  · intro x hx
    exact (List.mem_append.1 hx).elim (h.free x) (h'.free x)

theorem nodup (h : Fresh taken n m xs) : xs.Nodup := by
  obtain ⟨ks, rfl, hks, -⟩ := h.numbered
  exact (hks.imp Nat.ne_of_lt).map (f := tempName) fun _ _ hne heq => hne (tempName_inj heq)

theorem first (taken : List String) (n : Nat) :
    Fresh taken n (firstFree (fun k => [tempName k]) taken n + 1)
      [tempName (firstFree (fun k => [tempName k]) taken n)] := by
  have hle := le_firstFree (fun k => [tempName k]) taken n
  have hfree : tempName (firstFree (fun k => [tempName k]) taken n) ∉ taken :=
    firstFree_free
      (fun hn hm => tempName_inj ((List.mem_singleton.1 hn).symm.trans (List.mem_singleton.1 hm)))
      taken n List.mem_cons_self
  refine ⟨Nat.le_succ_of_le hle, ⟨[_], rfl, List.pairwise_singleton _ _, ?_⟩, ?_⟩
  · intro k hk
    obtain rfl := List.mem_singleton.1 hk
    exact ⟨hle, Nat.lt_succ_self _⟩
  · intro x hx
    obtain rfl := List.mem_singleton.1 hx
    exact hfree

theorem freshTemps (taken : List String) (count n : Nat) :
    Fresh taken n (freshTemps taken count n).2 (freshTemps taken count n).1 ∧
      (Braces.freshTemps taken count n).1.length = count := by
  induction count generalizing n with
  | zero => exact ⟨nil n, rfl⟩
  | succ count ih =>
    obtain ⟨hrest, hlength⟩ := ih (firstFree (fun k => [tempName k]) taken n + 1)
    exact ⟨(first taken n).append hrest, congrArg Nat.succ hlength⟩

end Fresh

/-! ## Tuple assignments -/

/-- Targets, values and variables of the same number make rows. -/
theorem exists_rows : ∀ {targets values : List Expr} {temps : List String} {stores : List Stmt},
    targets.length = values.length → temps.length = values.length →
    (List.zipWith (fun t x => storeTo? t (.var x)) targets temps).mapM id = some stores →
    ∃ rows : List Row, rows.map (·.target.expr) = targets ∧ rows.map (·.value) = values ∧
      rows.map (·.temp) = temps ∧
        List.zipWith Stmt.assign temps values ++ stores = Row.apart rows := by
  intro targets
  induction targets with
  | nil =>
    intro values temps stores hvalues htemps hstores
    obtain rfl := List.length_eq_zero_iff.1 hvalues.symm
    obtain rfl := List.length_eq_zero_iff.1 htemps
    cases hstores
    exact ⟨[], rfl, rfl, rfl, rfl⟩
  | cons target targets ih =>
    intro values temps stores hvalues htemps hstores
    cases values with
    | nil => cases hvalues
    | cons value values =>
      cases temps with
      | nil => cases htemps
      | cons temp temps =>
        simp only [List.zipWith_cons_cons, List.mapM_cons, id, Option.bind_eq_bind,
          Option.bind_eq_some_iff] at hstores
        obtain ⟨s, hs, more, hmore, hstores⟩ := hstores
        cases hstores
        obtain ⟨place, rfl, rfl⟩ := storeTo?_eq_some_iff.1 hs
        obtain ⟨rows, htargets, rfl, rfl, hrows⟩ :=
          ih (Nat.succ.inj hvalues) (Nat.succ.inj htemps) hmore
        refine ⟨⟨place, value, temp⟩ :: rows, by rw [List.map_cons, htargets], rfl, rfl, ?_⟩
        -- Both sides start with the assignment to the variable in between.
        have hassigns : List.zipWith Stmt.assign (rows.map (·.temp)) (rows.map (·.value)) =
            rows.map fun row => Stmt.assign row.temp row.value := by
          rw [List.zipWith_map, List.zipWith_self]
        have hmores : more = rows.map fun row => row.target.store (.var row.temp) := by
          rw [hassigns, Row.apart] at hrows
          exact List.append_cancel_left hrows
        rw [List.zipWith_cons_cons, hassigns, hmores]
        rfl

theorem exists_rows_of_tupleAssign {taken : List String} {next : Nat} {targets values : List Expr}
    {r : Numbered (List Stmt)} (h : tupleAssign taken next targets values = .ok r) :
    ∃ rows : List Row, rows.map (·.target.expr) = targets ∧ rows.map (·.value) = values ∧
      r.1 = Row.apart rows ∧ Fresh taken next r.2 (rows.map (·.temp)) := by
  unfold tupleAssign at h
  split at h
  · cases h
  next hlength =>
  obtain ⟨hfresh, hcount⟩ := Fresh.freshTemps taken values.length next
  dsimp only at h
  split at h
  · cases h
  · next stores hstores =>
    cases h
    obtain ⟨rows, htargets, hvalues, htemps, hrows⟩ :=
      exists_rows (Decidable.not_not.1 hlength) hcount hstores
    exact ⟨rows, htargets, hvalues, hrows, htemps ▸ hfresh⟩

/-! ## Names of phrases -/

theorem Expr.vars_toText (e : Expr) : e.toText.vars = e.vars := by
  unfold toText
  split
  · rfl
  · exact List.append_nil _

theorem Expr.vars_combine (op : BinOp) (l r : Expr) :
    (Expr.combine op l r).vars = l.vars ++ r.vars := by
  unfold combine
  split
  · rw [vars, vars_toText, vars_toText]
  · rfl

mutual

/-- The variables of an expression are among the tokens that spell it. -/
theorem Phrase.ident_of_mem_vars :
    ∀ {n : Nat} {ks : List Kind} {e : Expr}, Phrase n ks e → ∀ x ∈ e.vars, Kind.ident x ∈ ks
  | _, _, _, .tighter _ h, x, hx => h.ident_of_mem_vars x hx
  | _, _, _, .binary hl hr, x, hx => by
    rw [Expr.vars_combine] at hx
    obtain hx | hx := List.mem_append.1 hx
    · exact List.mem_append_left _ (hl.ident_of_mem_vars x hx)
    · exact List.mem_append_right _ (List.mem_cons_of_mem _ (hr.ident_of_mem_vars x hx))
  | _, _, _, .not h, x, hx => List.mem_cons_of_mem _ (h.ident_of_mem_vars x hx)
  | _, _, _, .plus h, x, hx => List.mem_cons_of_mem _ (h.ident_of_mem_vars x hx)
  | _, _, _, .minus h, x, hx => List.mem_cons_of_mem _ (h.ident_of_mem_vars x hx)
  | _, _, _, .index ht hp, x, hx => by
    obtain hx | hx := List.mem_append.1 hx
    · exact List.mem_append_left _ (ht.ident_of_mem_vars x hx)
    · exact List.mem_append_right _ (List.mem_cons_of_mem _
        (List.mem_append_left _ (hp.ident_of_mem_vars x hx)))
  | _, _, _, .int _, _, hx | _, _, _, .float _, _, hx | _, _, _, .str _, _, hx
  | _, _, _, .bool _, _, hx => by cases hx
  | _, _, _, .var name, x, hx => by
    obtain rfl := List.mem_singleton.1 hx
    exact List.mem_cons_self
  | _, _, _, .group h, x, hx =>
    List.mem_cons_of_mem _ (List.mem_append_left _ (h.ident_of_mem_vars x hx))
  | _, _, _, .list h, x, hx =>
    List.mem_cons_of_mem _ (List.mem_append_left _ (h.ident_of_mem_vars x hx))
  | _, _, _, .call _ _ h, x, hx =>
    List.mem_cons_of_mem _
      (List.mem_cons_of_mem _ (List.mem_append_left _ (h.ident_of_mem_vars x hx)))
  | _, _, _, .len h, x, hx => by
    refine List.mem_cons_of_mem _ (List.mem_cons_of_mem _ (List.mem_append_left _ ?_))
    exact h.ident_of_mem_vars x (List.mem_append_left _ hx)
  | _, _, _, .rangeTo h, x, hx | _, _, _, .rangeFrom h, x, hx | _, _, _, .rangeBy h, x, hx => by
    refine List.mem_cons_of_mem _ (List.mem_cons_of_mem _ (List.mem_append_left _ ?_))
    refine h.ident_of_mem_vars x ?_
    simpa [Expr.vars, Expr.varsOf, Expr.varsOfOption] using hx

theorem Phrases.ident_of_mem_vars :
    ∀ {ks : List Kind} {es : List Expr}, Phrases ks es → ∀ x ∈ Expr.varsOf es, Kind.ident x ∈ ks
  | _, _, .none, _, hx => by cases hx
  | _, _, .last h, x, hx => h.ident_of_mem_vars x (by simpa [Expr.varsOf] using hx)
  | _, _, .more h hs, x, hx => by
    obtain hx | hx := List.mem_append.1 hx
    · exact List.mem_append_left _ (h.ident_of_mem_vars x hx)
    · exact List.mem_append_right _ (List.mem_cons_of_mem _ (hs.ident_of_mem_vars x hx))

end

theorem Expr.mem_varsOf {es : List Expr} {x : String} : x ∈ varsOf es ↔ ∃ e ∈ es, x ∈ e.vars := by
  induction es with
  | nil => simp [varsOf]
  | cons e es ih => simp [varsOf, ih]

/-! ## Statements that are taken apart -/

theorem Stmt.assignedIn_append (ss ss' : List Stmt) :
    assignedIn (ss ++ ss') = assignedIn ss ++ assignedIn ss' := by
  induction ss with
  | nil => rfl
  | cons s ss ih => rw [List.cons_append, assignedIn, assignedIn, ih, List.append_assoc]

theorem Stmt.mem_assignedIn {ss : List Stmt} {x : String} :
    x ∈ assignedIn ss ↔ ∃ s ∈ ss, x ∈ s.assigned := by
  induction ss with
  | nil => simp [assignedIn]
  | cons s ss ih => simp [assignedIn, ih]

/-- A store to a place assigns at most the place's own variable. -/
theorem Place.mem_vars_of_assigned {place : Place} {value : Expr} {x : String}
    (h : x ∈ (place.store value).assigned) : x ∈ place.expr.vars := by
  cases place with
  | name y => exact h
  | item list position => cases h

/-- Taken apart, a tuple assignment assigns the variables in between and those of its targets. -/
theorem Row.of_mem_assignedIn_apart {rows : List Row} {x : String}
    (h : x ∈ Stmt.assignedIn (apart rows)) :
    ∃ row ∈ rows, x = row.temp ∨ x ∈ row.target.expr.vars := by
  obtain ⟨s, hs, hx⟩ := Stmt.mem_assignedIn.1 h
  rcases List.mem_append.1 hs with hs | hs
  · obtain ⟨row, hrow, rfl⟩ := List.mem_map.1 hs
    exact ⟨row, hrow, .inl (List.mem_singleton.1 hx)⟩
  · obtain ⟨row, hrow, rfl⟩ := List.mem_map.1 hs
    exact ⟨row, hrow, .inr (Place.mem_vars_of_assigned hx)⟩

/-- The statements are those of some sentences, with variables in between that are fresh from a
number on. The tuple assignments have no other variables than the tokens, and besides those in
between no other ones are assigned. -/
structure Apart (src : Source) (all : List Token) (next : Nat) (ss : List Sentence)
    (r : Numbered (List Stmt)) : Prop where
  stmts : r.1 = Sentence.lowerAll ss
  temps : Fresh src.taken next r.2 (Sentence.temps ss)
  words : ∀ rows ∈ Sentence.unpackingsIn ss, ∀ row ∈ rows, ∀ x ∈ row.names, Kind.ident x ∈ kinds all
  assigned : ∀ x ∈ Stmt.assignedIn r.1, Kind.ident x ∈ kinds all ∨ x ∈ Sentence.temps ss

namespace Apart

variable {src : Source} {all : List Token} {next : Nat} {ss ss' : List Sentence}
  {r r' : Numbered (List Stmt)}

theorem nil : Apart src all next [] ([], next) :=
  ⟨rfl, .nil next, List.forall_mem_nil _, List.forall_mem_nil _⟩

theorem plain {s : Stmt} (h : ∀ x ∈ s.assigned, Kind.ident x ∈ kinds all) :
    Apart src all next [.plain s] ([s], next) := by
  refine ⟨rfl, .nil next, List.forall_mem_nil _, fun x hx => .inl (h x ?_)⟩
  rwa [Stmt.assignedIn, Stmt.assignedIn, List.append_nil] at hx

theorem append (h : Apart src all next ss r) (h' : Apart src all r.2 ss' r') :
    Apart src all next (ss ++ ss') (r.1 ++ r'.1, r'.2) := by
  refine ⟨?_, ?_, ?_, ?_⟩
  · rw [Sentence.lowerAll_append, ← h.stmts, ← h'.stmts]
  · rw [Sentence.temps_append]
    exact h.temps.append h'.temps
  · rw [Sentence.unpackingsIn_append]
    exact List.forall_mem_append.2 ⟨h.words, h'.words⟩
  · rw [Stmt.assignedIn_append, Sentence.temps_append]
    refine List.forall_mem_append.2 ⟨fun x hx => ?_, fun x hx => ?_⟩
    · exact (h.assigned x hx).imp_right (List.mem_append_left _)
    · exact (h'.assigned x hx).imp_right (List.mem_append_right _)

/-- A sentence around others. -/
theorem around {s : Sentence} {t : Stmt} (h : Apart src all next ss r) (hlower : s.lower = [t])
    (hunpackings : s.unpackings = Sentence.unpackingsIn ss)
    (hassigned : ∀ x ∈ t.assigned, Kind.ident x ∈ kinds all ∨ x ∈ Stmt.assignedIn r.1) :
    Apart src all next [s] ([t], r.2) := by
  have htemps : Sentence.temps [s] = Sentence.temps ss := by
    rw [Sentence.temps, Sentence.unpackingsIn_singleton, hunpackings, Sentence.temps]
  refine ⟨?_, ?_, ?_, fun x hx => ?_⟩
  · rw [Sentence.lowerAll_singleton, hlower]
  · rw [htemps]
    exact h.temps
  · rw [Sentence.unpackingsIn_singleton, hunpackings]
    exact h.words
  · rw [Stmt.assignedIn, Stmt.assignedIn, List.append_nil] at hx
    rw [htemps]
    exact (hassigned x hx).elim .inl (h.assigned x)

theorem unpack {rows : List Row} {stmts : Numbered (List Stmt)} (hstmts : stmts.1 = Row.apart rows)
    (hfresh : Fresh src.taken next stmts.2 (rows.map (·.temp)))
    (hwords : ∀ row ∈ rows, ∀ x ∈ row.names, Kind.ident x ∈ kinds all) :
    Apart src all next [.unpack rows] stmts := by
  have htemps : Sentence.temps [.unpack rows] = rows.map (·.temp) := by
    rw [Sentence.temps, Sentence.unpackingsIn_singleton, Sentence.unpackings,
      List.flatten_singleton]
  refine ⟨?_, ?_, ?_, fun x hx => ?_⟩
  · rw [Sentence.lowerAll_singleton, hstmts]
    rfl
  · rw [htemps]
    exact hfresh
  · rw [Sentence.unpackingsIn_singleton]
    exact List.forall_mem_singleton.2 hwords
  · rw [hstmts] at hx
    rw [htemps]
    obtain ⟨row, hrow, rfl | hname⟩ := Row.of_mem_assignedIn_apart hx
    · exact .inr (List.mem_map_of_mem hrow)
    · exact .inl (hwords row hrow x (List.mem_append_left _ hname))

end Apart

/-! ## Lines -/

namespace Sentence

section
variable {stop : Token} {ts : List Token}

theorem gives_readExpr :
    Gives (fun e rest => ∃ used, ts = used ++ rest ∧ Phrase 1 (kinds used) e)
      (readExpr stop ts) := by
  refine (gives_readLevel stop .disjunction ts).mono ?_
  rintro e rest ⟨used, hts, hphrase, -⟩
  exact ⟨used, hts, hphrase⟩

/-- Expressions after a comma, or none where there is no comma. -/
def More (ts : List Token) (es : List Expr) (rest : List Token) : Prop :=
  (es = [] ∧ rest = ts ∧ ∀ t more, ts = t :: more → t.kind ≠ .symbol .comma) ∨
    ∃ t used, ts = t :: (used ++ rest) ∧ t.kind = .symbol .comma ∧ Phrases (kinds used) es

/-- An expression and those after commas. -/
theorem More.phrases {used ts rest : List Token} {e : Expr} {es : List Expr}
    (he : Phrase 1 (kinds used) e) (h : More ts es rest) :
    ∃ used', used ++ ts = used' ++ rest ∧ Phrases (kinds used') (e :: es) := by
  obtain ⟨rfl, rfl, -⟩ | ⟨t, more, rfl, ht, hmore⟩ := h
  · exact ⟨used, rfl, .last he⟩
  · refine ⟨used ++ t :: more, by simp, ?_⟩
    rw [kinds_append, kinds_cons, ht]
    exact .more he hmore

theorem gives_readMore {ends : List Token → Bool} (ts : List Token) :
    Gives (More ts) (readMore stop ends ts) := by
  unfold readMore
  split
  · next pos rest =>
    split
    · exact .ok (.inr ⟨_, [], rfl, rfl, .none⟩)
    · refine gives_readExpr.bind fun e r₁ _ he => ?_
      obtain ⟨used, rfl, he⟩ := he
      refine (gives_readMore r₁).bind fun es r₂ _ hes => ?_
      obtain ⟨used', hused, hphrases⟩ := hes.phrases he
      exact .ok (.inr ⟨_, used', congrArg _ hused, rfl, hphrases⟩)
  · next hcomma =>
    refine .ok (.inl ⟨rfl, rfl, ?_⟩)
    rintro ⟨k, pos⟩ more rfl hk
    cases hk
    exact hcomma pos more rfl
termination_by ts.length
decreasing_by
  subst_vars
  simp only [List.length_cons, List.length_append]
  omega

end

end Sentence

/-- The token that makes a sentence go on in a way. -/
def Follow.Fits (ts : List Token) : Follow → Prop
  | .moreTargets => ∃ t more, ts = t :: more ∧ t.kind = .symbol .comma
  | .value => ∃ t more, ts = t :: more ∧ t.kind = .symbol .equal
  | .operand op => ∃ t more, ts = t :: more ∧ augmented? t.kind = some op
  | .nothing => True

theorem Follow.fits (ts : List Token) : (Follow.of ts).Fits ts := by
  cases ts with
  | nil => exact trivial
  | cons t more =>
    rw [Follow.of]
    split
    · next hcomma => exact ⟨t, more, rfl, hcomma⟩
    split
    · next hequal => exact ⟨t, more, rfl, hequal⟩
    split
    · next op hop => exact ⟨t, more, rfl, hop⟩
    · exact trivial

namespace Sentence

variable {src : Source} {f : Bool} {next : Nat} {ts all : List Token}

/-- A sentence on a line, taken apart. -/
def OneRead (src : Source) (all : List Token) (next : Nat) (ts : List Token)
    (r : Numbered (List Stmt)) (rest : List Token) : Prop :=
  ∃ used s, ts = used ++ rest ∧ Simple (kinds used) s ∧ Apart src all next [s] r

/-- The variables of rows whose targets and values are spelled are among the tokens. -/
theorem ident_of_mem_names {rows : List Row} {targets values : List Expr} {ks : List Kind}
    (htargets : rows.map (·.target.expr) = targets) (hvalues : rows.map (·.value) = values)
    (hidents : ∀ e ∈ targets ++ values, ∀ x ∈ e.vars, Kind.ident x ∈ ks) :
    ∀ row ∈ rows, ∀ x ∈ row.names, Kind.ident x ∈ ks := by
  intro row hrow x hx
  subst htargets hvalues
  obtain hx | hx := List.mem_append.1 hx
  · exact hidents _ (List.mem_append_left _ (List.mem_map_of_mem hrow)) x hx
  · exact hidents _ (List.mem_append_right _ (List.mem_map_of_mem hrow)) x hx

theorem gives_unpack {first value : Expr} {more values : List Expr}
    {used used₁ used₂ rest : List Token}
    {equal comma : Token} (hts : ts = used ++ comma :: (used₁ ++ equal :: (used₂ ++ rest)))
    (h : ts <:+ all) (hcomma : comma.kind = .symbol .comma) (hequal : equal.kind = .symbol .equal)
    (hfirst : Phrase 1 (kinds used) first) (hmore : Phrases (kinds used₁) more)
    (hvalues : Phrases (kinds used₂) (value :: values)) {r : Numbered (List Stmt)}
    (hr : tupleAssign src.taken next (first :: more) (value :: values) = .ok r) :
    OneRead src all next ts r rest := by
  subst hts
  obtain ⟨rows, htargets, hrows, hstmts, hfresh⟩ := exists_rows_of_tupleAssign hr
  refine ⟨used ++ comma :: (used₁ ++ equal :: used₂), .unpack rows, by simp, ?_, ?_⟩
  · rw [kinds_append, kinds_cons, kinds_append, kinds_cons, hcomma, hequal]
    exact .unpack hfirst hmore (hrows ▸ hvalues) htargets
  · have hin : ∀ {k : Kind}, k ∈ kinds used ∨ k ∈ kinds used₁ ∨ k ∈ kinds used₂ →
        k ∈ kinds all := by
      intro k hk
      have hsub : kinds (used ++ comma :: (used₁ ++ equal :: (used₂ ++ rest))) ⊆ kinds all :=
        List.map_subset _ h.subset
      refine hsub ?_
      simp only [kinds_append, kinds_cons, List.mem_append, List.mem_cons]
      tauto
    refine .unpack hstmts hfresh (ident_of_mem_names htargets hrows ?_)
    intro e he x hx
    obtain he | he := List.mem_append.1 he
    · obtain rfl | he := List.mem_cons.1 he
      · exact hin (.inl (hfirst.ident_of_mem_vars x hx))
      · exact hin (.inr (.inl (hmore.ident_of_mem_vars x (Expr.mem_varsOf.2 ⟨e, he, hx⟩))))
    · exact hin (.inr (.inr (hvalues.ident_of_mem_vars x (Expr.mem_varsOf.2 ⟨e, he, hx⟩))))

theorem gives_readAssignment (h : ts <:+ all) :
    Gives (OneRead src all next ts) (readAssignment src next ts) := by
  unfold readAssignment
  refine gives_readExpr.bind fun first r _ hfirst => ?_
  obtain ⟨used, rfl, hfirst⟩ := hfirst
  have hfits := Follow.fits r
  have hstored : ∀ {place : Place} {value : Expr}, Phrase 1 (kinds used) place.expr →
      ∀ x ∈ (place.store value).assigned, Kind.ident x ∈ kinds all := by
    intro place value hplace x hx
    have hused : kinds used ⊆ kinds all :=
      List.map_subset _ fun t ht => h.subset (List.mem_append_left r ht)
    exact hused (hplace.ident_of_mem_vars x (Place.mem_vars_of_assigned hx))
  dsimp only
  split
  · next hfollow =>
    rw [hfollow] at hfits
    obtain ⟨comma, r', rfl, hcomma⟩ := hfits
    refine (gives_readMore (comma :: r')).bind fun more r₁ _ hmore => ?_
    obtain ⟨-, -, hnone⟩ | ⟨_, used₁, heq, -, hmore⟩ := hmore
    · exact (hnone comma r' rfl hcomma).elim
    cases heq
    refine gives_expect.bind fun _ r₂ _ hequal => ?_
    obtain ⟨equal, rfl, hequal⟩ := hequal
    refine gives_readExpr.bind fun value r₃ _ hvalue => ?_
    obtain ⟨used₂, rfl, hvalue⟩ := hvalue
    refine (gives_readMore r₃).bind fun values r₄ _ hvalues => ?_
    obtain ⟨used₃, hused, hvalues⟩ := hvalues.phrases hvalue
    dsimp only
    split
    · next hstmts =>
      exact .ok (gives_unpack (by rw [hused]) h hcomma hequal hfirst hmore hvalues hstmts)
    · exact .error _
  · next hfollow =>
    rw [hfollow] at hfits
    obtain ⟨equal, r', rfl, hequal⟩ := hfits
    refine gives_readExpr.bind fun value r₁ _ hvalue => ?_
    obtain ⟨used₁, hr', hvalue⟩ := hvalue
    obtain rfl : r' = used₁ ++ r₁ := hr'
    dsimp only
    split
    · next s hs =>
      obtain ⟨place, rfl, rfl⟩ := storeTo?_eq_some_iff.1 hs
      refine .ok ⟨used ++ equal :: used₁, _, by simp, ?_, .plain (hstored hfirst)⟩
      rw [kinds_append, kinds_cons, hequal]
      exact .assign hfirst hvalue
    · exact .error _
  · next op hfollow =>
    rw [hfollow] at hfits
    obtain ⟨sign, r', rfl, hsign⟩ := hfits
    refine gives_readExpr.bind fun value r₁ _ hvalue => ?_
    obtain ⟨used₁, hr', hvalue⟩ := hvalue
    obtain rfl : r' = used₁ ++ r₁ := hr'
    dsimp only
    split
    · next s hs =>
      obtain ⟨place, rfl, rfl⟩ := storeTo?_eq_some_iff.1 hs
      refine .ok ⟨used ++ sign :: used₁, _, by simp, ?_, .plain (hstored hfirst)⟩
      rw [kinds_append, kinds_cons]
      exact .update hfirst hsign hvalue
    · exact .error _
  · exact .ok ⟨used, _, rfl, .eval hfirst, .plain (List.forall_mem_nil _)⟩

theorem gives_readSimple (h : ts <:+ all) :
    Gives (OneRead src all next ts) (readSimple src f next ts) := by
  unfold readSimple
  split
  · next pos rest =>
    split
    · exact .error _
    split
    · exact .ok ⟨[_], _, rfl, .ret, .plain (List.forall_mem_nil _)⟩
    · refine gives_readExpr.bind fun e r₁ _ he => ?_
      obtain ⟨used, rfl, he⟩ := he
      exact .ok ⟨_ :: used, _, rfl, .retValue he, .plain (List.forall_mem_nil _)⟩
  · next pos rest =>
    refine gives_expect.bind fun _ r₁ _ hopen => ?_
    obtain ⟨t, rfl, ht⟩ := hopen
    refine (gives_readItems src.stop .closeParen r₁).bind fun args r₂ _ hargs => ?_
    obtain ⟨used, t', rfl, ht', hphrases⟩ := hargs
    refine .ok ⟨⟨.keyword .print, pos⟩ :: t :: (used ++ [t']), _, by simp, ?_,
      .plain (List.forall_mem_nil _)⟩
    rw [kinds_cons, kinds_cons, kinds_append, kinds_cons, kinds_nil, ht, ht']
    exact .print hphrases
  · exact .ok ⟨[_], _, rfl, .pass, .plain (List.forall_mem_nil _)⟩
  · exact .ok ⟨[_], _, rfl, .break_, .plain (List.forall_mem_nil _)⟩
  · exact .ok ⟨[_], _, rfl, .continue_, .plain (List.forall_mem_nil _)⟩
  · exact gives_readAssignment h

theorem gives_readAfterSemicolons (next : Nat) (ts : List Token) (h : ts <:+ all) :
    Gives (fun r rest => ∃ used ss, ts = used ++ rest ∧ Later (kinds used) ss ∧
      Apart src all next ss r) (readAfterSemicolons src f next ts) := by
  unfold readAfterSemicolons
  split
  · next pos rest =>
    split
    · exact .ok ⟨[_], [], rfl, .closed, .nil⟩
    · refine (gives_readSimple (suffix_of_cons h)).bind fun s r₁ _ hs => ?_
      obtain ⟨used, sentence, rfl, hsimple, hs⟩ := hs
      have hr₁ : r₁ <:+ all := (List.suffix_append used r₁).trans (suffix_of_cons h)
      refine (gives_readAfterSemicolons s.2 r₁ hr₁).bind fun more r₂ _ hmore => ?_
      obtain ⟨used', ss, rfl, hlater, hmore⟩ := hmore
      refine .ok ⟨⟨.symbol .semicolon, pos⟩ :: (used ++ used'), sentence :: ss, by simp, ?_,
        hs.append hmore⟩
      rw [kinds_cons, kinds_append]
      exact .more hsimple hlater
  · exact .ok ⟨[], [], rfl, .none, .nil⟩
termination_by ts.length
decreasing_by
  subst_vars
  simp only [List.length_cons, List.length_append]
  omega

theorem gives_readLineEnd {stop : Token} :
    Gives (fun _ rest => LineEnd (kinds ts) (kinds rest) ∧ rest <:+ ts) (readLineEnd stop ts) := by
  unfold readLineEnd
  split
  · exact .ok ⟨.newline _, List.suffix_cons _ _⟩
  · exact .ok ⟨.dedent _, List.suffix_rfl⟩
  · exact .ok ⟨.eof _, List.suffix_rfl⟩
  · exact .ok ⟨.nothing, List.suffix_rfl⟩
  · exact .error _

/-- Sentences at the start of the tokens, taken apart. -/
def SomeRead (G : List Kind → List Sentence → List Kind → Prop) (src : Source) (all : List Token)
    (next : Nat) (ts : List Token) (r : Numbered (List Stmt)) (rest : List Token) : Prop :=
  ∃ ss, G (kinds ts) ss (kinds rest) ∧ rest <:+ ts ∧ Apart src all next ss r

theorem gives_readLine (h : ts <:+ all) :
    Gives (SomeRead Line src all next ts) (readLine src f next ts) := by
  unfold readLine
  refine (gives_readSimple h).bind fun s r₁ _ hs => ?_
  obtain ⟨used, sentence, rfl, hsimple, hs⟩ := hs
  have hr₁ : r₁ <:+ all := (List.suffix_append used r₁).trans h
  refine (gives_readAfterSemicolons s.2 r₁ hr₁).bind fun more r₂ _ hmore => ?_
  obtain ⟨used', ss, rfl, hlater, hmore⟩ := hmore
  refine gives_readLineEnd.bind fun _ r₃ _ hend => ?_
  refine .ok ⟨sentence :: ss, ?_, ?_, hs.append hmore⟩
  · rw [kinds_append, kinds_append]
    exact .intro hsimple hlater hend.1
  · exact (hend.2.trans (List.suffix_append _ _)).trans (List.suffix_append _ _)

/-! ## Blocks -/

theorem gives_expectIdent {stop : Token} :
    Gives (fun name rest => ∃ t, ts = t :: rest ∧ t.kind = .ident name) (expectIdent stop ts) := by
  unfold expectIdent
  split
  · exact .ok ⟨_, rfl, rfl⟩
  · exact .error _

mutual

theorem gives_readBlock (src : Source) (f : Bool) (next : Nat) (ts all : List Token)
    (h : ts <:+ all) :
    Gives (SomeRead Block src all next ts) (readBlock src f next ts) := by
  unfold readBlock
  refine gives_expect.bind fun _ r₁ hlt hcolon => ?_
  obtain ⟨colon, rfl, hcolon⟩ := hcolon
  dsimp only
  split
  · next pos r₂ hlt₁ =>
    refine gives_expect.bind fun _ r₃ hlt₂ hindent => ?_
    obtain ⟨indent, rfl, hindent⟩ := hindent
    have hr₃ : r₃ <:+ all := suffix_of_cons (suffix_of_cons (suffix_of_cons h))
    refine (gives_readBody src f next r₃ all hr₃).bind fun body r₄ _ hbody => ?_
    obtain ⟨ss, hss, hr₄, hapart⟩ := hbody
    have hinside : r₃ <:+ colon :: ⟨.newline, pos⟩ :: indent :: r₃ :=
      suffix_of_cons (suffix_of_cons (suffix_of_cons List.suffix_rfl))
    refine .ok ⟨ss, ?_, hr₄.trans hinside, hapart⟩
    rw [kinds_cons, kinds_cons, kinds_cons, hcolon, hindent]
    exact .indented hss
  · refine (gives_readLine (suffix_of_cons h)).bind fun body r₃ _ hbody => ?_
    obtain ⟨ss, hss, hr₃, hapart⟩ := hbody
    refine .ok ⟨ss, ?_, hr₃.trans (List.suffix_cons _ _), hapart⟩
    rw [kinds_cons, hcolon]
    exact .inline hss
termination_by 4 * ts.length

theorem gives_readBody (src : Source) (f : Bool) (next : Nat) (ts all : List Token)
    (h : ts <:+ all) :
    Gives (SomeRead Body src all next ts) (readBody src f next ts) := by
  unfold readBody
  split
  · exact .error _
  · next t rest =>
    split
    · next ht =>
      refine .ok ⟨[], ?_, List.suffix_cons _ _, .nil⟩
      rw [kinds_cons, ht]
      exact .done _
    split
    · exact .error _
    · refine (gives_readStmt src f next (t :: rest) all h).bind fun s r₁ hlt hs => ?_
      obtain ⟨ss, hss, hr₁, hapart⟩ := hs
      refine (gives_readBody src f s.2 r₁ all (hr₁.trans h)).bind fun more r₂ _ hmore => ?_
      obtain ⟨ss', hss', hr₂, hapart'⟩ := hmore
      exact .ok ⟨ss ++ ss', .more hss hss', hr₂.trans hr₁, hapart.append hapart'⟩
termination_by 4 * ts.length + 2
decreasing_by
  all_goals
    subst_vars
    omega

theorem gives_readStmt (src : Source) (f : Bool) (next : Nat) (ts all : List Token)
    (h : ts <:+ all) :
    Gives (SomeRead Written src all next ts) (readStmt src f next ts) := by
  unfold readStmt
  split
  · next pos rest =>
    refine (gives_readIf src f next rest all (suffix_of_cons h)).bind fun s r₁ _ hs => ?_
    obtain ⟨sentence, hbranch, hr₁, hapart⟩ := hs
    exact .ok ⟨[sentence], .branch hbranch, hr₁.trans (List.suffix_cons _ _), hapart⟩
  · next pos rest =>
    refine gives_readExpr.bind fun cond r₁ hlt hcond => ?_
    obtain ⟨used, rfl, hcond⟩ := hcond
    have hused := List.suffix_append used r₁
    refine (gives_readBlock src f next r₁ all (hused.trans (suffix_of_cons h))).bind
      fun body r₂ _ hbody => ?_
    obtain ⟨ss, hss, hr₂, hapart⟩ := hbody
    refine .ok ⟨[.whileLoop cond ss], ?_, (hr₂.trans hused).trans (List.suffix_cons _ _), ?_⟩
    · rw [kinds_cons, kinds_append]
      exact .whileLoop hcond hss
    · exact hapart.around (by rw [lower, hapart.stmts]) rfl fun _ hx => .inr hx
  · next pos rest =>
    refine gives_expectIdent.bind fun name r₁ hlt hname => ?_
    obtain ⟨ident, rfl, hname⟩ := hname
    refine gives_expect.bind fun _ r₂ hlt₁ hin => ?_
    obtain ⟨t, rfl, hin⟩ := hin
    refine gives_readExpr.bind fun iterable r₃ hlt₂ hiterable => ?_
    obtain ⟨used, rfl, hiterable⟩ := hiterable
    have hused : r₃ <:+ ident :: t :: (used ++ r₃) :=
      (List.suffix_append used r₃).trans (suffix_of_cons (suffix_of_cons List.suffix_rfl))
    refine (gives_readBlock src f next r₃ all (hused.trans (suffix_of_cons h))).bind
      fun body r₄ _ hbody => ?_
    obtain ⟨ss, hss, hr₄, hapart⟩ := hbody
    refine .ok ⟨[.forLoop name iterable ss], ?_, (hr₄.trans hused).trans (List.suffix_cons _ _), ?_⟩
    · rw [kinds_cons, kinds_cons, kinds_cons, kinds_append, hname, hin]
      exact .forLoop hiterable hss
    · refine hapart.around (by rw [lower, hapart.stmts]) rfl (List.forall_mem_cons.2 ⟨.inl ?_, ?_⟩)
      · have hmem : ident ∈ all := h.subset (List.mem_cons_of_mem _ List.mem_cons_self)
        exact hname ▸ List.mem_map_of_mem hmem
      · exact fun _ hx => .inr hx
  · exact .error _
  · refine (gives_readLine h).mono ?_
    rintro r rest ⟨ss, hline, hrest, hapart⟩
    exact ⟨ss, .line hline, hrest, hapart⟩
termination_by 4 * ts.length + 1
decreasing_by
  all_goals
    subst_vars
    simp only [List.length_cons, List.length_append] at *
    omega

theorem gives_readIf (src : Source) (f : Bool) (next : Nat) (ts all : List Token) (h : ts <:+ all) :
    Gives (fun r rest => ∃ s, Branch (kinds ts) s (kinds rest) ∧ rest <:+ ts ∧
      Apart src all next [s] ([r.1], r.2)) (readIf src f next ts) := by
  unfold readIf
  refine gives_readExpr.bind fun cond r₁ hlt hcond => ?_
  obtain ⟨used, rfl, hcond⟩ := hcond
  have hused := List.suffix_append used r₁
  refine (gives_readBlock src f next r₁ all (hused.trans h)).bind fun body r₂ hlt₁ hbody => ?_
  obtain ⟨ss, hss, hr₂, hapart⟩ := hbody
  dsimp only
  split
  · next pos r₃ hlt₂ =>
    have hr₃ : r₃ <:+ used ++ r₁ := (suffix_of_cons hr₂).trans hused
    have hshorter : r₃.length < (used ++ r₁).length := Nat.lt_trans (Nat.lt_of_succ_lt hlt₂) hlt
    refine (gives_readIf src f body.2 r₃ all (hr₃.trans h)).bind fun s r₄ _ hs => ?_
    obtain ⟨sentence, hbranch, hr₄, hapart'⟩ := hs
    refine .ok ⟨.ifElse cond ss (some [sentence]), ?_, hr₄.trans hr₃, ?_⟩
    · rw [kinds_append]
      exact .elseIf hcond hss hbranch
    · refine (hapart.append hapart').around ?_ (unpackingsIn_append _ _).symm fun x hx => .inr ?_
      · rw [lower, lowerElse, hapart.stmts, ← hapart'.stmts]
      · rwa [Stmt.assignedIn_append]
  · next pos r₃ hlt₂ =>
    have hr₃ : r₃ <:+ used ++ r₁ := (suffix_of_cons hr₂).trans hused
    have hshorter : r₃.length < (used ++ r₁).length := Nat.lt_trans (Nat.lt_of_succ_lt hlt₂) hlt
    refine (gives_readBlock src f body.2 r₃ all (hr₃.trans h)).bind fun orelse r₄ _ horelse => ?_
    obtain ⟨ss', hss', hr₄, hapart'⟩ := horelse
    refine .ok ⟨.ifElse cond ss (some ss'), ?_, hr₄.trans hr₃, ?_⟩
    · rw [kinds_append]
      exact .otherwise hcond hss hss'
    · refine (hapart.append hapart').around ?_ (unpackingsIn_append _ _).symm fun x hx => .inr ?_
      · rw [lower, lowerElse, hapart.stmts, hapart'.stmts]
      · rwa [Stmt.assignedIn_append]
  · refine .ok ⟨.ifElse cond ss none, ?_, hr₂.trans hused, ?_⟩
    · rw [kinds_append]
      exact .only hcond hss
    · refine hapart.around ?_ (List.append_nil _) fun x hx => .inr ?_
      · rw [lower, lowerElse, hapart.stmts]
      · exact (List.mem_append.1 hx).resolve_right List.not_mem_nil
termination_by 4 * ts.length
decreasing_by
  all_goals
    subst_vars
    simp only [List.length_cons, List.length_append] at *
    omega

end

/-! ## Programs -/

theorem gives_readParams (stop : Token) (ts : List Token) :
    Gives (fun names rest => Params (kinds ts) names (kinds rest) ∧ rest <:+ ts)
      (readParams stop ts) := by
  unfold readParams
  split
  · exact .ok ⟨.none _, List.suffix_cons _ _⟩
  · refine gives_expectIdent.bind fun name r₁ hlt hname => ?_
    obtain ⟨ident, rfl, hname⟩ := hname
    dsimp only
    split
    · next pos r₂ _ _ =>
      have hshorter : r₂.length < (ident :: ⟨.symbol .comma, pos⟩ :: r₂).length := by
        simp only [List.length_cons]
        omega
      refine (gives_readParams stop r₂).bind fun names r₃ _ hnames => ?_
      refine .ok ⟨?_, (hnames.2.trans (List.suffix_cons _ _)).trans (List.suffix_cons _ _)⟩
      rw [kinds_cons, kinds_cons, hname]
      exact .more hnames.1
    · refine gives_expect.bind fun _ r₃ _ hclose => ?_
      obtain ⟨t, rfl, hclose⟩ := hclose
      refine .ok ⟨?_, (List.suffix_cons _ _).trans (List.suffix_cons _ _)⟩
      rw [kinds_cons, kinds_cons, hname, hclose]
      exact .last name _
termination_by ts.length

theorem gives_readFunction (h : ts <:+ all) :
    Gives (fun r rest => ∃ s,
      (∀ {ss}, Text (kinds rest) ss → Text (kinds ts) (s :: ss)) ∧ rest <:+ ts ∧
      Apart src all next [s] ([r.1], r.2)) (readFunction src next ts) := by
  unfold readFunction
  refine gives_expect.bind fun _ r₁ _ hdef => ?_
  obtain ⟨t, rfl, hdef⟩ := hdef
  refine gives_expectIdent.bind fun name r₂ _ hname => ?_
  obtain ⟨ident, rfl, hname⟩ := hname
  refine gives_expect.bind fun _ r₃ _ hopen => ?_
  obtain ⟨t', rfl, hopen⟩ := hopen
  refine (gives_readParams src.stop r₃).bind fun params r₄ _ hparams => ?_
  obtain ⟨hparams, hr₄⟩ := hparams
  have hinside : r₄ <:+ t :: ident :: t' :: r₃ :=
    hr₄.trans (suffix_of_cons (suffix_of_cons (suffix_of_cons List.suffix_rfl)))
  refine (gives_readBlock src true next r₄ all (hinside.trans h)).bind fun body r₅ _ hbody => ?_
  obtain ⟨ss, hss, hr₅, hapart⟩ := hbody
  refine .ok ⟨.funcDef name params ss, ?_, hr₅.trans hinside, ?_⟩
  · intro more hmore
    rw [kinds_cons, kinds_cons, kinds_cons, hdef, hname, hopen]
    exact .function hparams hss hmore
  · exact hapart.around (by rw [lower, hapart.stmts]) rfl (List.forall_mem_nil _)

theorem text_of_readProgram (next : Nat) (ts all : List Token) (h : ts <:+ all) {p : Program}
    (hp : readProgram src next ts = .ok p) :
    ∃ ss m, Text (kinds ts) ss ∧ Apart src all next ss (p, m) := by
  unfold readProgram at hp
  split at hp
  · cases hp
    exact ⟨[], next, .done, .nil⟩
  next t rest =>
  split at hp
  · next ht =>
    cases hp
    refine ⟨[], next, ?_, .nil⟩
    rw [kinds_cons, ht]
    exact .eof _
  split at hp
  · next ht =>
    obtain ⟨ss, m, hss, hapart⟩ := text_of_readProgram next rest all (suffix_of_cons h) hp
    refine ⟨ss, m, ?_, hapart⟩
    rw [kinds_cons, ht]
    exact .blank hss
  split at hp
  · obtain ⟨⟨r, r₁, hlt⟩, hr, hp⟩ := exists_of_bind_eq_ok hp
    obtain ⟨more, hmore, hp⟩ := exists_of_bind_eq_ok hp
    cases hp
    obtain ⟨s, htext, hr₁, hapart⟩ := gives_readFunction h _ hr
    obtain ⟨ss, m, hss, hapart'⟩ := text_of_readProgram r.2 r₁ all (hr₁.trans h) hmore
    exact ⟨s :: ss, m, htext hss, hapart.append hapart'⟩
  · obtain ⟨⟨r, r₁, hlt⟩, hr, hp⟩ := exists_of_bind_eq_ok hp
    obtain ⟨more, hmore, hp⟩ := exists_of_bind_eq_ok hp
    cases hp
    obtain ⟨ss, hss, hr₁, hapart⟩ := gives_readStmt src false next _ all h _ hr
    obtain ⟨ss', m, hss', hapart'⟩ := text_of_readProgram r.2 r₁ all (hr₁.trans h) hmore
    exact ⟨ss ++ ss', m, .free hss hss', hapart.append hapart'⟩
termination_by ts.length
decreasing_by
  all_goals
    subst_vars
    first
    | exact Nat.lt_succ_self _
    | assumption

end Sentence

end Braces
