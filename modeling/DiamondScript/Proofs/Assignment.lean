import DiamondScript.Proofs.Meaning

namespace DiamondScript.Machine

open Codegen

variable {V : Type} (D : Domain V)

theorem checkAssignment_eq_ok {declared actual : ValueType} {span : Span} :
    checkAssignment declared actual span = .ok () ↔ declared.compare actual = .yes := by
  unfold checkAssignment
  split <;> simp_all

/-- The blocks that bring a value to a variable after its own: none where the value is in that
variable already, and a copy otherwise. -/
def Copies (schema : Schema) (x : Var) (item : Item) (span : Span) (copy : List Codeblock) : Prop :=
  if item.asVariable? = some x then copy = []
  else ∃ block, setVar schema Operation.copy.action [.ofVariable x.1 x.2, item] span = .ok block ∧
    copy = [block]

theorem assignInto_eq_ok {ctx : Context} {name : String} {storage : Storage} {declared : ValueType}
    {n : Nat} {value : Expr} {span : Span} {em : Emitted Unit} :
    assignInto ctx name storage declared n value span = .ok em ↔
      ∃ v copy, Compiles ctx (.var name storage.wireName) n value v ∧
        declared.compare v.result.type = .yes ∧
        Copies ctx.schema (name, storage.wireName) v.result.item span copy ∧
        em = ⟨(), v.blocks ++ copy, v.next⟩ := by
  simp only [assignInto, bind_eq_ok, genValue_eq_ok, Copies]
  constructor
  · rintro ⟨v, hv, _, htype, h⟩
    rw [checkAssignment_eq_ok] at htype
    refine ⟨v, ?_⟩
    split at h
    case isTrue hitem =>
      cases h
      exact ⟨[], hv, htype, by rw [if_pos hitem], by rw [List.append_nil]⟩
    case isFalse hitem =>
      obtain ⟨block, hblock, h⟩ := bind_eq_ok.mp h
      cases h
      exact ⟨[block], hv, htype, by rw [if_neg hitem]; exact ⟨block, hblock, rfl⟩, rfl⟩
  · rintro ⟨v, copy, hv, htype, hcopy, rfl⟩
    refine ⟨v, hv, (), checkAssignment_eq_ok.mpr htype, ?_⟩
    split at hcopy
    case isTrue hitem => rw [if_pos hitem, hcopy, List.append_nil]
    case isFalse hitem =>
      obtain ⟨block, hblock, rfl⟩ := hcopy
      rw [if_neg hitem]
      exact bind_eq_ok.mpr ⟨block, hblock, rfl⟩

theorem assignInto_in_place {ctx : Context} {name : String} {storage : Storage}
    {declared : ValueType} {n : Nat} {value : Expr} {v : Emitted Value}
    (h : genValue ctx (.var name storage.wireName) n value = .ok v)
    (htype : declared.compare v.result.type = .yes)
    (hitem : v.result.item.asVariable? = some (name, storage.wireName)) (span : Span) :
    assignInto ctx name storage declared n value span = .ok ⟨(), v.blocks, v.next⟩ := by
  refine assignInto_eq_ok.mpr ⟨v, [], genValue_eq_ok.mp h, htype, ?_, by rw [List.append_nil]⟩
  rw [Copies, if_pos hitem]

theorem targets_copies {schema : Schema} {x : Var} {item : Item} {span : Span}
    {copy : List Codeblock} (h : Copies schema x item span copy) : targets copy ⊆ [x] := by
  unfold Copies at h
  split at h
  case isTrue => simp [h, targets]
  case isFalse =>
    obtain ⟨block, hblock, rfl⟩ := h
    rw [targets_setVar .copy hblock]
    exact List.Subset.refl _

theorem read_asVariable {item : Item} {x : Var} (h : item.asVariable? = some x) (s : Store V) :
    D.read s item = some (s x) := by
  obtain ⟨slot, kind⟩ := item
  cases kind with
  | «variable» name scope =>
      cases h
      rfl
  | _ => simp [Item.asVariable?] at h

theorem exec_copies {schema : Schema} {x : Var} {item : Item} {span : Span}
    {copy : List Codeblock} (h : Copies schema x item span copy) {s : Store V} {val : V}
    (hread : D.read s item = some val) : exec D copy s x = val := by
  unfold Copies at h
  split at h
  case isTrue hitem =>
    rw [read_asVariable D hitem] at hread
    rw [h, exec_nil]
    exact Option.some.inj hread
  case isFalse =>
    obtain ⟨block, hblock, rfl⟩ := h
    rw [exec_cons, step_setVar D .copy hblock (.cons hread .nil) rfl, exec_nil,
      Function.update_self]

theorem eval_direct {scope : Scope} {e : Expr} {x : Var} (h : direct? scope e = some x)
    (s : Store V) : eval D scope s e = some (s x) := by
  fun_induction direct? scope e with
  | case1 _ name => simp only [eval, h, Option.map_some]
  | case2 _ _ value ih => exact ih h
  | case3 => simp at h

theorem direct?_computed {schema : Schema} {target : Item} {e : Expr} {vs : List Value}
    {type : ValueType} {blocks : List Codeblock} (h : Finishes schema target e vs type blocks)
    (scope : Scope) : direct? scope e = none := by
  cases h <;> rfl

theorem item_direct {ctx : Context} {dest : Dest} {n : Nat} {e : Expr} {v : Emitted Value}
    (h : Compiles ctx dest n e v) {x : Var} (hx : direct? ctx.scope e = some x) :
    v.result.item.asVariable? = some x := by
  induction h with
  | number | str | styledText | vector => simp [direct?] at hx
  | name dest n span bound =>
      rw [direct?, resolve?, bound] at hx
      exact hx
  | computed values placed finish => simp [direct?_computed finish] at hx
  | cast span type inner hv => exact hv hx

theorem reads_any {s : Store V} {items : List Item} {vals : List V} (h : Reads D s items vals)
    (s' : Store V) : ∃ vals', Reads D s' items vals' := by
  induction h with
  | nil => exact ⟨[], .nil⟩
  | cons head _ ih =>
      rename_i item _ _ _ _
      obtain ⟨vals', ih⟩ := ih
      obtain ⟨slot, kind⟩ := item
      cases kind with
      | tag | parameter => simp [Domain.read] at head
      | _ => exact ⟨_ :: vals', .cons rfl ih⟩

theorem enter_inj {keys : List String} {us vs : List Term} (hu : us.length = keys.length)
    (hv : vs.length = keys.length) {d d' : Term}
    (h : symbolic.enter d (keys.zip us) = symbolic.enter d' (keys.zip vs)) :
    d = d' ∧ us = vs := by
  induction keys generalizing us vs d d' with
  | nil =>
      rw [List.length_eq_zero_iff.mp hu, List.length_eq_zero_iff.mp hv] at *
      exact ⟨h, rfl⟩
  | cons key keys ih =>
      obtain ⟨u, us, rfl⟩ := List.exists_cons_of_length_eq_add_one hu
      obtain ⟨v, vs, rfl⟩ := List.exists_cons_of_length_eq_add_one hv
      obtain ⟨hd, hs⟩ := ih (Nat.succ.inj hu) (Nat.succ.inj hv) h
      simp only [symbolic, Term.set.injEq, true_and] at hd
      exact ⟨hd.1, by rw [hd.2, hs]⟩

/-- An entry that is the dictionary itself gets what has been built so far, which is not what
any variable held at first. -/
theorem exec_fillDict_self {schema : Schema} {x : Var} {span : Span}
    {entries : List (String × Item)} {fill : List Codeblock}
    (h : fillDict schema (.ofVariable x.1 x.2) span entries = .ok fill) {s : Store Term}
    {vals : List Term} (hread : Reads symbolic s (entries.map Prod.snd) vals)
    (hx : ∀ y, s x ≠ .initial y) :
    ∃ us, List.Forall₂ (fun item u => item.asVariable? = some x → ∀ y, u ≠ .initial y)
        (entries.map Prod.snd) us ∧
      exec symbolic fill s x = symbolic.enter (s x) ((entries.map Prod.fst).zip us) := by
  induction entries generalizing fill s vals with
  | nil =>
      cases h
      exact ⟨[], .nil, rfl⟩
  | cons entry rest ih =>
      rw [fillDict] at h
      obtain ⟨block, hblock, h⟩ := bind_eq_ok.mp h
      obtain ⟨blocks, hblocks, h⟩ := bind_eq_ok.mp h
      cases h
      obtain _ | ⟨hu, hus⟩ := hread
      rename_i u _
      have hstep := step_setVar symbolic (.set .dictionary) hblock (.cons rfl (.cons hu .nil)) rfl
      obtain ⟨vals', hrest⟩ := reads_any symbolic hus (step symbolic s block)
      obtain ⟨us, hself, hfill⟩ := ih hblocks hrest (by
        intro y hy
        rw [hstep, Function.update_self] at hy
        cases hy)
      refine ⟨u :: us, .cons ?_ hself, ?_⟩
      · intro hitem
        rw [read_asVariable symbolic hitem] at hu
        cases hu
        exact hx
      · rw [exec_cons, hfill, hstep, Function.update_self]
        rfl

theorem exec_finish_self {schema : Schema} {x : Var} {span : Span} {entries : List (String × Expr)}
    {vs : List Value} {type : ValueType} {blocks : List Codeblock}
    (h : Finishes schema (.ofVariable x.1 x.2) (.dict span entries) vs type blocks) {scope : Scope}
    {s : Store Term} {vals : List Term}
    (heval : List.Forall₂ (fun o v => eval symbolic scope .initial o.2 = some v)
      (operands (.dict span entries)) vals)
    (hread : Reads symbolic s (vs.map Value.item) vals)
    (hitems : List.Forall₂ (fun o v => ∀ y, direct? scope o.2 = some y →
      v.item.asVariable? = some y) (operands (.dict span entries)) vs)
    (hentry : x ∈ entryVariables scope (.dict span entries)) :
    eval symbolic scope .initial (.dict span entries) ≠ some (exec symbolic blocks s x) := by
  obtain ⟨created, filled⟩ := h
  rename_i create fill
  rw [operands, List.forall₂_map_left_iff] at heval hitems
  have hents := mapM_eq_some_iff.mpr heval
  rw [← evalEntries_eq] at hents
  have hlen := hitems.length_eq.symm
  obtain ⟨hkeys, hvals⟩ := keyed_items hlen
  have hcreate := step_setVar symbolic .createDict (s := s) created .nil rfl
  obtain ⟨vals', hread'⟩ := reads_any symbolic hread (step symbolic s create)
  obtain ⟨us, hself, hfill⟩ := exec_fillDict_self filled (hvals ▸ hread') (by
    intro y hy
    rw [hcreate, Function.update_self] at hy
    cases hy)
  rw [hvals, List.forall₂_map_left_iff] at hself
  intro he
  simp only [eval, hents, bind, Option.bind_some, exec_cons, Option.some.injEq] at he
  rw [hfill, hkeys, hcreate, Function.update_self] at he
  -- Both sides are folds over the same keys, and terms are free: they are equal entry by entry.
  have hus := (enter_inj (by simp [heval.length_eq]) (by simp [← hself.length_eq, hlen]) he).2
  obtain ⟨entry, hm, hd⟩ := List.mem_filterMap.mp hentry
  obtain ⟨i, hi, rfl⟩ := List.getElem_of_mem hm
  have hinitial := heval.get hi (heval.length_eq ▸ hi)
  have hitem := hitems.get hi (hlen ▸ hi) x hd
  have hnot := hself.get (hlen ▸ hi) (hself.length_eq ▸ hlen ▸ hi) hitem
  subst hus
  have hx := (eval_direct symbolic hd .initial).symm.trans hinitial
  exact hnot x (Option.some.inj hx).symm

theorem exec_entry {ctx : Context} {x : Var} {n : Nat} {e : Expr} {v : Emitted Value}
    (h : Compiles ctx (.var x.1 x.2) n e v)
    (hfresh : ∀ y ∈ variablesOf ctx.scope e, y ∉ temporaries n (hintsOf [] e))
    (hentry : x ∈ entryVariables ctx.scope e) :
    v.result.item.asVariable? = some x ∧
      eval symbolic ctx.scope .initial e ≠ some (exec symbolic v.blocks .initial x) := by
  generalize hdest : Dest.var x.1 x.2 = dest at h
  induction h with
  | number | str | styledText | vector | name => simp [entryVariables] at hentry
  | cast span type inner hv =>
      rw [hintsOf] at hfresh
      exact hv hfresh hentry hdest
  | computed values placed finish =>
      rename_i dest n e vs target next type blocks _
      subst hdest
      rw [place_eq] at placed
      cases placed
      rw [variablesOf_computed finish, finish.hintsOf_eq, List.append_nil] at hfresh
      obtain ⟨vals, hevs, hrds⟩ := reads_operands symbolic (s := .initial)
        (values.imp fun hc => ⟨hc, fun s hf => exec_compiles symbolic hc hf (by simp [named]) s⟩)
        (fun o ho => operands_hint ho) hfresh fun _ _ => rfl
      have hitems := forall₂_each (P := fun o v => ∀ y, direct? ctx.scope o.2 = some y →
        v.item.asVariable? = some y) (fun hc _ hy => item_direct hc hy) values
      refine ⟨rfl, ?_⟩
      rw [exec_append]
      cases e with
      | dict span entries => exact exec_finish_self finish hevs hrds hitems hentry
      | cast => cases finish
      | _ => simp [entryVariables] at hentry

section
variable {ctx : Context} {name : String} {storage : Storage} {declared : ValueType} {n : Nat}
  {value : Expr} {span : Span} {em : Emitted Unit}

theorem exec_assignInto_other (h : assignInto ctx name storage declared n value span = .ok em)
    {y : Var} (hy : y ≠ (name, storage.wireName)) (hnot : ¬ NamedFrom operandHints n y)
    (s : Store V) : exec D em.blocks s y = s y := by
  obtain ⟨v, copy, hc, -, hcopy, rfl⟩ := assignInto_eq_ok.mp h
  refine exec_of_not_target D ?_ s
  rw [targets_append, List.mem_append, not_or]
  refine ⟨fun ht => ?_, fun ht => hy (List.mem_singleton.mp (targets_copies hcopy ht))⟩
  rcases List.mem_append.mp (targets_compiles hc ht) with hm | hm
  · exact hnot (namedFrom_of_mem_temporaries (hintsOf_subset [] value) hm)
  · exact hy (List.mem_singleton.mp hm)

theorem exec_assignInto_value (h : assignInto ctx name storage declared n value span = .ok em)
    (hfresh : ∀ y ∈ (name, storage.wireName) :: variablesOf ctx.scope value,
      ¬ NamedFrom operandHints n y)
    (hentry : (name, storage.wireName) ∉ entryVariables ctx.scope value) (s : Store V) :
    eval D ctx.scope s value = some (exec D em.blocks s (name, storage.wireName)) := by
  obtain ⟨v, copy, hc, -, hcopy, rfl⟩ := assignInto_eq_ok.mp h
  have htemp {y : Var} (hy : ¬ NamedFrom operandHints n y) :
      y ∉ temporaries n (hintsOf [] value) :=
    fun ht => hy (namedFrom_of_mem_temporaries (hintsOf_subset [] value) ht)
  rw [List.forall_mem_cons] at hfresh
  obtain ⟨val, hev, hread⟩ := exec_compiles D hc (fun y hy => htemp (hfresh.2 y hy)) (by
    intro y hy
    rw [List.mem_singleton.mp hy]
    exact ⟨htemp hfresh.1, hentry⟩) s
  rw [hev, exec_append, exec_copies D hcopy hread]

/-- An assignment changes only its own variable, apart from temporaries. The variable gets the
value that the right-hand side had before, unless that is a dictionary literal in which the
variable itself stands as an entry: then, and only then, the entry reads the new dictionary. -/
theorem assignInto_meaning (h : assignInto ctx name storage declared n value span = .ok em)
    (hfresh : ∀ y ∈ (name, storage.wireName) :: variablesOf ctx.scope value,
      ¬ NamedFrom operandHints n y) :
    (∀ (V : Type) (D : Domain V) (s : Store V) (y : Var), y ≠ (name, storage.wireName) →
      ¬ NamedFrom operandHints n y → exec D em.blocks s y = s y) ∧
    ((∀ (V : Type) (D : Domain V) (s : Store V),
        eval D ctx.scope s value = some (exec D em.blocks s (name, storage.wireName))) ↔
      (name, storage.wireName) ∉ entryVariables ctx.scope value) := by
  refine ⟨fun V D s y hy hnot => exec_assignInto_other D h hy hnot s, fun hall hentry => ?_,
    fun hentry V D s => exec_assignInto_value D h hfresh hentry s⟩
  obtain ⟨v, copy, hc, -, hcopy, rfl⟩ := assignInto_eq_ok.mp h
  obtain ⟨hitem, hne⟩ := exec_entry hc (fun y hy ht => hfresh y (List.mem_cons_of_mem _ hy)
    (namedFrom_of_mem_temporaries (hintsOf_subset [] value) ht)) hentry
  rw [Copies, if_pos hitem] at hcopy
  apply hne
  rw [hall, hcopy, List.append_nil]

end

/-- The assignment `x = [x, {"a": x}]`. -/
theorem assignInto_meaning_nested :
    let ctx : Context := ⟨leastSchema, Scope.empty.define "x" (.listOf .any) .game⟩
    let x : Expr := .variable default "x"
    let value : Expr := .list default [x, .dict default [("a", x)]]
    ∃ em, assignInto ctx "x" .game (.listOf .any) 0 value default = .ok em ∧
      (∀ y ∈ ("x", "unsaved") :: variablesOf ctx.scope value, ¬ NamedFrom operandHints 0 y) ∧
      ("x", "unsaved") ∉ entryVariables ctx.scope value ∧
      ∀ (V : Type) (D : Domain V) (s : Store V),
        eval D ctx.scope s value = some (exec D em.blocks s ("x", "unsaved")) := by
  intro ctx x value
  have hfresh : ∀ y ∈ ("x", "unsaved") :: variablesOf ctx.scope value,
      ¬ NamedFrom operandHints 0 y := by
    intro y hy
    have hx : y = ("x", "unsaved") := by
      simpa using (show y ∈ List.replicate 3 ("x", "unsaved") from hy)
    exact not_namedFrom (by rw [hx]; decide) 0
  have hentry : ("x", "unsaved") ∉ entryVariables ctx.scope value := by
    simp [value, entryVariables]
  have hok : ∃ em, assignInto ctx "x" .game (.listOf .any) 0 value default = .ok em :=
    ⟨_, assignInto_in_place rfl rfl rfl _⟩
  obtain ⟨em, h⟩ := hok
  exact ⟨em, h, hfresh, hentry, (assignInto_meaning h hfresh).2.mpr hentry⟩

/-- The assignment `x = {"a": x}` makes a dictionary whose entry is the empty dictionary. -/
theorem assignInto_self_entry :
    let ctx : Context := ⟨leastSchema, Scope.empty.define "x" (.declared .dict [.any]) .game⟩
    let value : Expr := .dict default [("a", .variable default "x")]
    ∃ em, assignInto ctx "x" .game (.declared .dict [.any]) 0 value default = .ok em ∧
      (∀ y ∈ ("x", "unsaved") :: variablesOf ctx.scope value, ¬ NamedFrom operandHints 0 y) ∧
      eval symbolic ctx.scope .initial value =
        some (symbolic.dictOf [("a", .initial ("x", "unsaved"))]) ∧
      exec symbolic em.blocks .initial ("x", "unsaved") = symbolic.dictOf [("a", .emptyDict)] := by
  intro ctx value
  refine ⟨_, assignInto_in_place rfl rfl rfl _, fun y hy => ?_, rfl, ?_⟩
  · have hx : y = ("x", "unsaved") := by
      simpa using (show y ∈ List.replicate 2 ("x", "unsaved") from hy)
    exact not_namedFrom (by rw [hx]; decide) 0
  · rfl

end DiamondScript.Machine
