import DiamondScript.Proofs.Derivation

namespace DiamondScript.Codegen

/-- A variable as blocks name it: its name and its scope on the wire. -/
abbrev Var := String × String

def temporary (hint : String) (k : Nat) : Var := (temporaryName hint k, Storage.line.wireName)

def operandHints : List String := ["__bin_l", "__bin_r", "__obj", "__idx", "__dict", "__list"]

def allHints : List String := "__value" :: "__carg" :: operandHints

def temporaries (n : Nat) (hints : List String) : List Var :=
  (hints.zipIdx n).map fun e => temporary e.1 e.2

def NamedFrom (hints : List String) (n : Nat) (x : Var) : Prop :=
  ∃ hint ∈ hints, ∃ k, n ≤ k ∧ x = temporary hint k

def endsInDigit (hint : String) : Bool := hint.toList.getLast?.any Char.isDigit

theorem toList_temporaryName (hint : String) (k : Nat) :
    (temporaryName hint k).toList = hint.toList ++ Nat.toDigits 10 k := by
  change (hint ++ toString k).toList = _
  simp

/-- A hint that ends in no digit keeps its numbers apart from all higher ones, whatever the
other hint is: a longer hint would have to end in a digit, a shorter one would have to go on
with digits that make its number at least as high. -/
theorem temporaryName_ne {hint : String} (hword : endsInDigit hint = false) (other : String)
    {k m : Nat} (hk : k < m) : temporaryName hint k ≠ temporaryName other m := by
  intro he
  have hl := congrArg String.toList he
  rw [toList_temporaryName, toList_temporaryName] at hl
  rcases List.append_eq_append_iff.mp hl with ⟨r, -, hd⟩ | ⟨r, hh, hd⟩
  · have hn := congrArg (fun ds => Nat.ofDigitChars 10 ds 0) hd
    rw [Nat.ofDigitChars_append, Nat.ofDigitChars_ten_toDigits,
      Nat.ofDigitChars_eq_ofDigitChars_zero, Nat.ofDigitChars_ten_toDigits] at hn
    omega
  · rcases List.eq_nil_or_concat r with rfl | ⟨init, c, rfl⟩
    · have hn := congrArg (fun ds => Nat.ofDigitChars 10 ds 0) hd
      simp only [List.nil_append, Nat.ofDigitChars_ten_toDigits] at hn
      omega
    · have hc : c.isDigit = true :=
        Nat.isDigit_of_mem_toDigits (by decide) (by decide) (b := 10) (n := m) (by rw [hd]; simp)
      have hlast : hint.toList.getLast? = some c := by rw [hh]; simp
      simp [endsInDigit, hlast, hc] at hword

theorem allHints_words {hint : String} (h : hint ∈ allHints) : endsInDigit hint = false := by
  revert hint
  decide

theorem mem_temporaries {n : Nat} {hints : List String} {x : Var} :
    x ∈ temporaries n hints ↔
      ∃ hint k, n ≤ k ∧ hints[k - n]? = some hint ∧ x = temporary hint k := by
  simp only [temporaries, List.mem_map, Prod.exists, List.mk_mem_zipIdx_iff_le_and_getElem?_sub]
  constructor
  · rintro ⟨hint, k, ⟨hk, hh⟩, rfl⟩
    exact ⟨hint, k, hk, hh, rfl⟩
  · rintro ⟨hint, k, hk, hh, rfl⟩
    exact ⟨hint, k, ⟨hk, hh⟩, rfl⟩

theorem temporaries_append (n : Nat) (hs hs' : List String) :
    temporaries n (hs ++ hs') = temporaries n hs ++ temporaries (n + hs.length) hs' := by
  simp [temporaries, List.zipIdx_append]

theorem namedFrom_of_mem_temporaries {n : Nat} {hs hints : List String} (hsub : hs ⊆ hints)
    {x : Var} (hx : x ∈ temporaries n hs) : NamedFrom hints n x := by
  obtain ⟨hint, k, hk, hh, rfl⟩ := mem_temporaries.mp hx
  exact ⟨hint, hsub (List.mem_of_getElem? hh), k, hk, rfl⟩

theorem NamedFrom.mono {hs hints : List String} (hsub : hs ⊆ hints) {m n : Nat} (hmn : m ≤ n)
    {x : Var} (h : NamedFrom hs n x) : NamedFrom hints m x := by
  obtain ⟨hint, hm, k, hk, rfl⟩ := h
  exact ⟨hint, hsub hm, k, Nat.le_trans hmn hk, rfl⟩

theorem not_namedFrom {hints : List String} {x : Var}
    (h : ∀ hint ∈ hints, ¬ hint.toList <+: x.1.toList) (n : Nat) : ¬ NamedFrom hints n x := by
  rintro ⟨hint, hm, k, -, rfl⟩
  apply h hint hm
  rw [temporary, toList_temporaryName]
  exact List.prefix_append _ _

theorem temporaries_apart {n : Nat} {hs later : List String} (hsub : hs ⊆ allHints) {x : Var}
    (hx : x ∈ temporaries n hs) : x ∉ temporaries (n + hs.length) later := by
  intro hy
  obtain ⟨hint, k, hk, hh, rfl⟩ := mem_temporaries.mp hx
  obtain ⟨other, m, hm, -, he⟩ := mem_temporaries.mp hy
  have hlt : k - n < hs.length := (List.getElem?_eq_some_iff.mp hh).1
  have hword := allHints_words (hsub (List.mem_of_getElem? hh))
  exact temporaryName_ne hword other (by omega) (congrArg Prod.fst he)

mutual

/-- The hints of the temporaries that code for an expression takes, in order. Where a computed
value itself goes is up to the caller: `own` is the hint of its temporary, or empty. -/
def hintsOf (own : List String) : Expr → List String
  | .dict _ entries => entryHints entries ++ own
  | .list _ items => itemHints "__list" items ++ own
  | .binary _ _ _ left right => hintsOf ["__bin_l"] left ++ (hintsOf ["__bin_r"] right ++ own)
  | .index _ object index => hintsOf ["__obj"] object ++ (hintsOf ["__idx"] index ++ own)
  | .cast _ _ value => hintsOf own value
  | _ => []

def itemHints (hint : String) : List Expr → List String
  | [] => []
  | e :: rest => hintsOf [hint] e ++ itemHints hint rest

def entryHints : List (String × Expr) → List String
  | [] => []
  | (_, e) :: rest => hintsOf ["__dict"] e ++ entryHints rest

end

def hintsAll (operands : List (String × Expr)) : List String :=
  operands.flatMap fun o => hintsOf [o.1] o.2

theorem hintsAll_cons (hint : String) (e : Expr) (ops : List (String × Expr)) :
    hintsAll ((hint, e) :: ops) = hintsOf [hint] e ++ hintsAll ops := rfl

theorem itemHints_eq (hint : String) (items : List Expr) :
    itemHints hint items = hintsAll (items.map fun item => (hint, item)) := by
  induction items with
  | nil => rfl
  | cons e rest ih => rw [itemHints, ih, List.map_cons, hintsAll_cons]

theorem entryHints_eq (entries : List (String × Expr)) :
    entryHints entries = hintsAll (entries.map fun entry => ("__dict", entry.2)) := by
  induction entries with
  | nil => rfl
  | cons entry rest ih => rw [entryHints, ih, List.map_cons, hintsAll_cons]

theorem Finishes.hintsOf_eq {schema : Schema} {target : Item} {e : Expr} {vs : List Value}
    {type : ValueType} {blocks : List Codeblock} (h : Finishes schema target e vs type blocks)
    (own : List String) : hintsOf own e = hintsAll (operands e) ++ own := by
  cases h with
  | dict => simp only [hintsOf, operands, entryHints_eq]
  | list => simp only [hintsOf, operands, itemHints_eq]
  | binary | index =>
      simp only [hintsOf, operands, hintsAll, List.flatMap_cons, List.flatMap_nil,
        List.append_nil, List.append_assoc]

theorem subset_operandHints {hint : String} (hh : hint ∈ operandHints) {hs : List String}
    (h : hs ⊆ [hint] ++ operandHints) : hs ⊆ operandHints := by
  intro x hx
  rcases List.mem_append.mp (h hx) with hm | hm
  · rwa [List.mem_singleton.mp hm]
  · exact hm

mutual

theorem hintsOf_subset (own : List String) : ∀ e : Expr, hintsOf own e ⊆ own ++ operandHints
  | .dict _ entries => by
      rw [hintsOf, List.append_subset]
      exact ⟨List.subset_append_of_subset_right _ (entryHints_subset entries),
        List.subset_append_left _ _⟩
  | .list _ items => by
      rw [hintsOf, List.append_subset]
      exact ⟨List.subset_append_of_subset_right _ (itemHints_subset "__list" (by decide) items),
        List.subset_append_left _ _⟩
  | .binary _ _ _ left right => by
      have hl := subset_operandHints (by decide) (hintsOf_subset ["__bin_l"] left)
      have hr := subset_operandHints (by decide) (hintsOf_subset ["__bin_r"] right)
      rw [hintsOf, List.append_subset, List.append_subset]
      exact ⟨List.subset_append_of_subset_right _ hl, List.subset_append_of_subset_right _ hr,
        List.subset_append_left _ _⟩
  | .index _ object index => by
      have ho := subset_operandHints (by decide) (hintsOf_subset ["__obj"] object)
      have hi := subset_operandHints (by decide) (hintsOf_subset ["__idx"] index)
      rw [hintsOf, List.append_subset, List.append_subset]
      exact ⟨List.subset_append_of_subset_right _ ho, List.subset_append_of_subset_right _ hi,
        List.subset_append_left _ _⟩
  | .cast _ _ value => by
      rw [hintsOf]
      exact hintsOf_subset own value
  | .number .. | .str .. | .styledText .. | .vector .. | .variable .. | .setIndex ..
  | .assign .. | .call .. | .action .. => by simp [hintsOf]

theorem itemHints_subset (hint : String) (hh : hint ∈ operandHints) :
    ∀ items : List Expr, itemHints hint items ⊆ operandHints
  | [] => by simp [itemHints]
  | e :: rest => by
      rw [itemHints, List.append_subset]
      exact ⟨subset_operandHints hh (hintsOf_subset [hint] e), itemHints_subset hint hh rest⟩

theorem entryHints_subset :
    ∀ entries : List (String × Expr), entryHints entries ⊆ operandHints
  | [] => by simp [entryHints]
  | (_, e) :: rest => by
      rw [entryHints, List.append_subset]
      exact ⟨subset_operandHints (by decide) (hintsOf_subset ["__dict"] e), entryHints_subset rest⟩

end

theorem hintsOf_subset_allHints {hint : String} (h : hint ∈ allHints) (e : Expr) :
    hintsOf [hint] e ⊆ allHints := by
  refine List.Subset.trans (hintsOf_subset [hint] e) (List.append_subset.mpr ⟨?_, ?_⟩)
  · simpa using h
  · exact fun _ hop => List.mem_cons_of_mem _ (List.mem_cons_of_mem _ hop)

theorem hintsAll_subset {ops : List (String × Expr)} (h : ∀ o ∈ ops, o.1 ∈ allHints) :
    hintsAll ops ⊆ allHints := by
  intro hint hm
  obtain ⟨o, ho, hm⟩ := List.mem_flatMap.mp hm
  exact hintsOf_subset_allHints (h o ho) o.2 hm

theorem operands_hint {e : Expr} {o : String × Expr} (h : o ∈ operands e) : o.1 ∈ allHints := by
  cases e with
  | dict | list =>
      obtain ⟨_, _, rfl⟩ := List.mem_map.mp h
      simp [allHints, operandHints]
  | binary | index =>
      simp only [operands, List.mem_cons, List.not_mem_nil, or_false] at h
      rcases h with rfl | rfl <;> simp [allHints, operandHints]
  | _ => simp [operands] at h

theorem elementOperands_hint {object index value : Expr} {o : String × Expr}
    (h : o ∈ elementOperands object index value) : o.1 ∈ allHints := by
  simp only [elementOperands, List.mem_cons, List.not_mem_nil, or_false] at h
  rcases h with rfl | rfl | rfl <;> simp [allHints, operandHints]

def Dest.own : Dest → List String
  | .var _ _ => []
  | .temp hint => [hint]

def Dest.target (n : Nat) : Dest → Var
  | .var name scope => (name, scope)
  | .temp hint => temporary hint n

theorem place_eq (dest : Dest) (n : Nat) :
    place dest n =
      (.ofVariable (dest.target n).1 (dest.target n).2, n + dest.own.length) := by
  cases dest <;> rfl

end DiamondScript.Codegen
