import DiamondScript.Proofs.Typing

namespace DiamondScript.ValueType

/-- The ways in which a type takes another one. -/
inductive Takes (expected actual : ValueType) : Prop
  | any (anything : expected.base = .any)
  | entries {es : List (EntryKey × ValueType)} (same : expected.base = actual.base)
      (arity : expected.params.length = actual.params.length)
      (container : isContainer expected.base) (recorded : actual.entries? = some es)
      (each : ∀ e ∈ es, expected.element.accepts e.2)
  | element (same : expected.base = actual.base)
      (arity : expected.params.length = actual.params.length)
      (container : isContainer expected.base) (declared : actual.entries? = none)
      (inner : expected.element.accepts actual.element)
  | params (same : expected.base = actual.base) (other : isContainer expected.base = false)
      (pairs : List.Forall₂ (fun p a => p.accepts a) expected.params actual.params)

theorem compare_any (actual : ValueType) : any.compare actual = .yes := by
  rw [any, simple, compare, compareBase, if_pos rfl]

theorem compareHead_eq (expected actual : ValueType) :
    compareHead expected.params actual = expected.element.compare actual := by
  rw [element]
  cases expected.params with
  | nil => exact (compare_any actual).symm
  | cons p ps => rw [compareHead, List.head?_cons, Option.getD_some]

theorem comparePairs_iff {ps as : List ValueType} (h : ps.length = as.length) :
    comparePairs ps as ↔ List.Forall₂ (fun p a => p.accepts a) ps as := by
  induction ps generalizing as with
  | nil =>
      obtain rfl := List.eq_nil_of_length_eq_zero h.symm
      simp [comparePairs]
  | cons p ps ih =>
      cases as with
      | nil => cases h
      | cons a as =>
          rw [comparePairs, Bool.and_eq_true, List.forall₂_cons, ih (Nat.succ.inj h)]
          rfl

theorem compare_eq (expected actual : ValueType) :
    expected.compare actual = compareBase expected.base expected.params.length
      expected.element.compare (comparePairs expected.params) actual := by
  have hhead : expected.element.compare = compareHead expected.params :=
    funext fun a => (compareHead_eq expected a).symm
  rw [hhead]
  cases expected <;> rw [compare, base, params]

section

variable {expected actual : ValueType}

theorem base_ne_any (hcontainer : isContainer expected.base) : expected.base ≠ .any := by
  intro hany
  rw [hany] at hcontainer
  cases hcontainer

theorem compare_container (hcontainer : isContainer expected.base)
    (hbase : expected.base = actual.base) (harity : expected.params.length = actual.params.length) :
    expected.compare actual = match actual.entries? with
      | some es =>
        match es.find? fun e => !expected.element.accepts e.2 with
        | some (key, type) => .entry key type
        | none => .yes
      | none => expected.element.compare actual.element := by
  rw [compare_eq, compareBase, if_neg (base_ne_any hcontainer), if_neg (by simp [hbase, harity]),
    if_pos hcontainer]
  rfl

theorem accepts_of_any (hany : expected.base = .any) : expected.accepts actual := by
  rw [accepts, compare_eq, compareBase, if_pos hany]
  rfl

theorem accepts_entries (hcontainer : isContainer expected.base)
    (hbase : expected.base = actual.base) (harity : expected.params.length = actual.params.length)
    {es : List (EntryKey × ValueType)} (hes : actual.entries? = some es) :
    expected.accepts actual ↔ ∀ e ∈ es, expected.element.accepts e.2 := by
  rw [accepts, compare_container hcontainer hbase harity, hes]
  dsimp only
  cases hfind : es.find? fun e => !expected.element.accepts e.2 with
  | none => simpa [Compatibility.isYes] using hfind
  | some e =>
      have hrefused := List.find?_some hfind
      have hmem := List.mem_of_find?_eq_some hfind
      constructor
      · intro h
        cases h
      · intro hall
        rw [hall e hmem] at hrefused
        cases hrefused

theorem accepts_element (hcontainer : isContainer expected.base)
    (hbase : expected.base = actual.base) (harity : expected.params.length = actual.params.length)
    (hes : actual.entries? = none) :
    expected.accepts actual ↔ expected.element.accepts actual.element := by
  rw [accepts, compare_container hcontainer hbase harity, hes]
  rfl

theorem accepts_params (hany : expected.base ≠ .any) (hother : isContainer expected.base = false)
    (hbase : expected.base = actual.base) (harity : expected.params.length = actual.params.length) :
    expected.accepts actual ↔
      List.Forall₂ (fun p a => p.accepts a) expected.params actual.params := by
  rw [← comparePairs_iff harity, accepts, compare_eq, compareBase, if_neg hany,
    if_neg (by simp [hbase, harity]), if_neg (by simp [hother])]
  split <;> simp_all [Compatibility.isYes]

theorem same_of_accepts (hany : expected.base ≠ .any) (h : expected.accepts actual) :
    expected.base = actual.base ∧ expected.params.length = actual.params.length := by
  rw [accepts, compare_eq, compareBase, if_neg hany] at h
  split at h
  case isTrue => cases h
  case isFalse hsame => simpa only [not_or, not_ne_iff] using hsame

theorem accepts_iff : expected.accepts actual ↔ Takes expected actual := by
  constructor
  · intro h
    by_cases hany : expected.base = .any
    · exact .any hany
    · obtain ⟨hbase, harity⟩ := same_of_accepts hany h
      cases hcontainer : isContainer expected.base with
      | true =>
          cases hes : actual.entries? with
          | some es =>
              exact .entries hbase harity hcontainer hes
                ((accepts_entries hcontainer hbase harity hes).mp h)
          | none =>
              exact .element hbase harity hcontainer hes
                ((accepts_element hcontainer hbase harity hes).mp h)
      | false => exact .params hbase hcontainer ((accepts_params hany hcontainer hbase harity).mp h)
  · intro h
    cases h with
    | any anything => exact accepts_of_any anything
    | entries same arity container recorded each =>
        exact (accepts_entries container same arity recorded).mpr each
    | element same arity container declared inner =>
        exact (accepts_element container same arity declared).mpr inner
    | params same other pairs =>
        by_cases hany : expected.base = .any
        · exact accepts_of_any hany
        · exact (accepts_params hany other same pairs.length_eq).mpr pairs

end

theorem entries?_of_entryFree {type : ValueType} (h : type.entryFree) :
    type.entries? = none ∧ entryFreeAll type.params := by
  cases type with
  | declared b ps => exact ⟨rfl, h⟩
  | literal => simp [entryFree] at h

theorem element_entryFree {type : ValueType} (h : type.entryFree) : type.element.entryFree := by
  have hparams := (entries?_of_entryFree h).2
  rw [element]
  cases hps : type.params with
  | nil => rfl
  | cons p ps =>
      rw [hps, entryFreeAll, Bool.and_eq_true] at hparams
      exact hparams.1

mutual

theorem accepts_refl : ∀ T : ValueType, T.entryFree → T.accepts T
  | .literal .., h => by simp [entryFree] at h
  | .declared b ps, h => by
      rw [accepts_iff]
      cases hcontainer : isContainer b with
      | true => exact .element rfl rfl hcontainer rfl (head_accepts_refl ps h)
      | false => exact .params rfl hcontainer (forall₂_accepts_refl ps h)

theorem head_accepts_refl : ∀ ps : List ValueType, entryFreeAll ps →
    (ps.head?.getD any).accepts (ps.head?.getD any)
  | [], _ => accepts_of_any rfl
  | p :: _, h => by
      rw [entryFreeAll, Bool.and_eq_true] at h
      exact accepts_refl p h.1

theorem forall₂_accepts_refl : ∀ ps : List ValueType, entryFreeAll ps →
    List.Forall₂ (fun p a => p.accepts a) ps ps
  | [], _ => .nil
  | p :: ps, h => by
      rw [entryFreeAll, Bool.and_eq_true] at h
      exact .cons (accepts_refl p h.1) (forall₂_accepts_refl ps h.2)

end

mutual

/-- The type in the middle must not be a literal: such a one is taken for its entries, and takes
others for its parameters. -/
theorem accepts_trans : ∀ (A : ValueType) {B C : ValueType}, B.entryFree → A.accepts B →
    B.accepts C → A.accepts C
  | .declared b ps, B, C, hB, hAB, hBC | .literal b ps _, B, C, hB, hAB, hBC => by
      rw [accepts_iff] at hAB hBC ⊢
      obtain ⟨hnone, hfree⟩ := entries?_of_entryFree hB
      have hany (hB : B.base = .any) (hbase : b = B.base) : b = .any := hbase.trans hB
      cases hAB with
      | any anything => exact .any anything
      | entries _ _ _ recorded =>
          rw [hnone] at recorded
          cases recorded
      | element same arity container declared inner =>
          cases hBC with
          | any anything => exact .any (hany anything same)
          | entries same' arity' container' recorded each =>
              exact .entries (same.trans same') (arity.trans arity') container recorded
                fun e he => head_accepts_trans ps (element_entryFree hB) inner (each e he)
          | element same' arity' container' declared' inner' =>
              exact .element (same.trans same') (arity.trans arity') container declared'
                (head_accepts_trans ps (element_entryFree hB) inner inner')
          | params same' other => rw [← same, container] at other; cases other
      | params same other pairs =>
          cases hBC with
          | any anything => exact .any (hany anything same)
          | entries same' arity' container' | element same' arity' container' =>
              rw [← same, other] at container'
              cases container'
          | params same' other' pairs' =>
              exact .params (same.trans same') other
                (forall₂_accepts_trans ps hfree pairs pairs')

theorem head_accepts_trans : ∀ (ps : List ValueType) {B C : ValueType}, B.entryFree →
    (ps.head?.getD any).accepts B → B.accepts C → (ps.head?.getD any).accepts C
  | [], _, _, _, _, _ => accepts_of_any rfl
  | p :: _, _, _, hB, hAB, hBC => accepts_trans p hB hAB hBC

theorem forall₂_accepts_trans : ∀ (ps : List ValueType) {qs rs : List ValueType},
    entryFreeAll qs → List.Forall₂ (fun p a => p.accepts a) ps qs →
    List.Forall₂ (fun p a => p.accepts a) qs rs → List.Forall₂ (fun p a => p.accepts a) ps rs
  | [], _, _, _, h, h' => by
      cases h
      cases h'
      exact .nil
  | p :: ps, _, _, hqs, h, h' => by
      obtain _ | ⟨hhead, hrest⟩ := h
      obtain _ | ⟨hhead', hrest'⟩ := h'
      rw [entryFreeAll, Bool.and_eq_true] at hqs
      exact .cons (accepts_trans p hqs.1 hhead hhead')
        (forall₂_accepts_trans ps hqs.2 hrest hrest')

end

theorem compare_literal {expected : ValueType} (hcontainer : isContainer expected.base)
    {ps : List ValueType} (harity : expected.params.length = ps.length)
    (es : List (EntryKey × ValueType)) :
    (∀ key type, expected.compare (.literal expected.base ps es) = .entry key type ↔
      ∃ before after, es = before ++ (key, type) :: after ∧
        (∀ e ∈ before, expected.element.accepts e.2) ∧ ¬ expected.element.accepts type) ∧
    (expected.compare (.literal expected.base ps es) = .yes ↔
      ∀ e ∈ es, expected.element.accepts e.2) := by
  have hcompare : expected.compare (.literal expected.base ps es) =
      match es.find? fun e => !expected.element.accepts e.2 with
      | some (key, type) => .entry key type
      | none => .yes :=
    compare_container hcontainer rfl harity
  constructor
  · intro key type
    rw [hcompare]
    constructor
    · intro h
      split at h
      case h_1 key' type' hfind =>
        cases h
        obtain ⟨hrefused, before, after, hsplit, hbefore⟩ := List.find?_eq_some_iff_append.mp hfind
        exact ⟨before, after, hsplit, by simpa using hbefore, by simpa using hrefused⟩
      case h_2 => cases h
    · rintro ⟨before, after, hsplit, hbefore, hrefused⟩
      have hfind : es.find? (fun e => !expected.element.accepts e.2) = some (key, type) :=
        List.find?_eq_some_iff_append.mpr
          ⟨by simpa using hrefused, before, after, hsplit, by simpa using hbefore⟩
      rw [hfind]
  · rw [← isYes_iff]
    have hbase : expected.base = (literal expected.base ps es).base := rfl
    exact accepts_entries hcontainer hbase harity rfl

/-- Compatibility is reflexive on types without recorded entries and transitive over them; a literal
is judged by the first of its entries that does not fit. -/
theorem accepts_preorder :
    (∀ T : ValueType, T.entryFree → T.accepts T) ∧
    (∀ A B C : ValueType, B.entryFree → A.accepts B → B.accepts C → A.accepts C) ∧
    ∀ (E : ValueType) (ps : List ValueType) (es : List (EntryKey × ValueType)),
      E.base = .dict ∨ E.base = .list → E.params.length = ps.length →
      (∀ key type, E.compare (.literal E.base ps es) = .entry key type ↔
        ∃ before after, es = before ++ (key, type) :: after ∧
          (∀ e ∈ before, E.element.accepts e.2) ∧ ¬ E.element.accepts type) ∧
      (E.compare (.literal E.base ps es) = .yes ↔ ∀ e ∈ es, E.element.accepts e.2) := by
  refine ⟨accepts_refl, fun A B C => accepts_trans A, ?_⟩
  intro E ps es hE harity
  have hcontainer : isContainer E.base := by
    rcases hE with hE | hE <;> rw [hE] <;> rfl
  exact compare_literal hcontainer harity es

/-- Nested lists of numbers, and a literal with a list of two entries in it, the second of which is
a string. -/
theorem accepts_preorder_nested :
    let T : ValueType := .declared .list [.declared .list [.num]]
    let inner (types : List ValueType) : ValueType :=
      .literal .list [.any] (types.zipIdx.map fun (type, i) => (.position i, type))
    let fits : ValueType := .literal .list [.any] [(.position 0, inner [.num, .num])]
    let bad : ValueType := inner [.num, .simple .str]
    T.entryFree ∧ T.accepts T ∧ T.accepts fits ∧
      ValueType.accepts (.declared .list [.any]) T ∧
      ValueType.accepts (.declared .list [.any]) fits ∧
      T.compare (.literal T.base [.any] [(.position 0, inner []), (.position 1, bad)]) =
        .entry (.position 1) bad := by
  intro T inner fits bad
  obtain ⟨hrefl, htrans, hliteral⟩ := accepts_preorder
  have hT : T.entryFree := by decide
  have hwide : ValueType.accepts (.declared .list [.any]) T := by decide
  have hfits : T.accepts fits := by decide
  refine ⟨hT, hrefl T hT, hfits, hwide, htrans _ T fits hT hwide hfits, ?_⟩
  refine ((hliteral T [.any] [(.position 0, inner []), (.position 1, bad)]
    (.inr rfl) rfl).1 _ _).mpr ⟨[(.position 0, inner [])], [], rfl, ?_, ?_⟩
  · decide
  · decide

/-- A literal in the middle: it is taken for its numbers, but takes anything. -/
example :
    let middle : ValueType := .literal .list [.any] [(.position 0, .num)]
    ValueType.accepts (.declared .list [.num]) middle ∧
      middle.accepts (.declared .list [.simple .str]) ∧
      ¬ ValueType.accepts (.declared .list [.num]) (.declared .list [.simple .str]) := by
  decide

end DiamondScript.ValueType
