import DiamondScript.Proofs.Evaluation
import DiamondScript.Proofs.Writes

namespace DiamondScript.Machine

open Codegen

variable {V : Type} (D : Domain V)

/-- The variable that an expression is, apart from casts. -/
def direct? (scope : Scope) : Expr → Option Var
  | .variable _ name => resolve? scope name
  | .cast _ _ value => direct? scope value
  | _ => none

def variablesAll (scope : Scope) (ops : List (String × Expr)) : List Var :=
  ops.flatMap fun o => variablesOf scope o.2

theorem variablesAll_cons (scope : Scope) (hint : String) (e : Expr) (ops : List (String × Expr)) :
    variablesAll scope ((hint, e) :: ops) = variablesOf scope e ++ variablesAll scope ops := rfl

theorem direct?_mem {scope : Scope} {e : Expr} {x : Var} (h : direct? scope e = some x) :
    x ∈ variablesOf scope e := by
  fun_induction direct? scope e with
  | case1 _ name => simp [variablesOf, Expr.names, h]
  | case2 _ _ value ih => exact ih h
  | case3 => simp at h

theorem itemNames_eq (items : List Expr) : Expr.itemNames items = items.flatMap Expr.names := by
  induction items with
  | nil => rfl
  | cons e rest ih => simp only [Expr.itemNames, ih, List.flatMap_cons]

theorem entryNames_eq (entries : List (String × Expr)) :
    Expr.entryNames entries = entries.flatMap fun entry => entry.2.names := by
  induction entries with
  | nil => rfl
  | cons entry rest ih => simp only [Expr.entryNames, ih, List.flatMap_cons]

theorem variablesOf_computed {schema : Schema} {target : Item} {e : Expr} {vs : List Value}
    {type : ValueType} {blocks : List Codeblock} (h : Finishes schema target e vs type blocks)
    (scope : Scope) : variablesOf scope e = variablesAll scope (operands e) := by
  cases h with
  | dict =>
      simp only [variablesOf, variablesAll, Expr.names, entryNames_eq, operands,
        List.filterMap_flatMap, List.flatMap_map]
  | list =>
      simp only [variablesOf, variablesAll, Expr.names, itemNames_eq, operands,
        List.filterMap_flatMap, List.flatMap_map]
  | binary | index =>
      simp only [variablesOf, variablesAll, Expr.names, operands, List.filterMap_append,
        List.flatMap_cons, List.flatMap_nil, List.append_nil]

theorem forall₂_each {R : String → Nat → Expr → Emitted Value → Prop}
    {P : String × Expr → Value → Prop} (hRP : ∀ {hint n e v}, R hint n e v → P (hint, e) v.result)
    {n : Nat} {ops : List (String × Expr)} {vs : Emitted (List Value)} (h : Each R n ops vs) :
    List.Forall₂ P ops vs.result := by
  induction h with
  | nil => exact .nil
  | cons head _ ih => exact .cons (hRP head) ih

theorem containers_eq {scope : Scope} {n : Nat} {ops : List (String × Expr)}
    {vs : Emitted (List Value)}
    (h : Each (fun _ _ e v => ∃ t, typeOf scope e = some t ∧ t.base = v.result.type.base ∧
      t.params = v.result.type.params) n ops vs) :
    ops.map (fun o => (typeOf scope o.2).bind containerOf?) =
      vs.result.map fun v => containerOf? v.type := by
  induction h with
  | nil => rfl
  | cons head _ ih =>
      obtain ⟨t, ht, hb, -⟩ := head
      simp only [List.map_cons, ih, ht, Option.bind_some, containerOf?, hb]

theorem typeOf_compiles {ctx : Context} {dest : Dest} {n : Nat} {e : Expr} {v : Emitted Value}
    (h : Compiles ctx dest n e v) : ∃ t, typeOf ctx.scope e = some t ∧
      t.base = v.result.type.base ∧ t.params = v.result.type.params := by
  induction h with
  | number | str | styledText | vector => exact ⟨_, rfl, rfl, rfl⟩
  | name dest n span bound => exact ⟨_, by simp only [typeOf, bound, Option.map_some], rfl, rfl⟩
  | computed values placed finish ih =>
      rename_i vs _ _ _ _
      obtain ⟨result, before, last⟩ := vs
      cases finish with
      | dict | list | binary => exact ⟨_, rfl, rfl, rfl⟩
      | index object index =>
          obtain ⟨o, i, ⟨_, t, ht, -, hp⟩, -, he⟩ := each_pair.mp ih
          cases he
          exact ⟨t.element, by simp only [typeOf, ht, Option.map_some],
            by rw [ValueType.element, hp, ← ValueType.element],
            by rw [ValueType.element, hp, ← ValueType.element]⟩
  | cast span type inner =>
      rename_i v _
      refine ⟨type, rfl, ?_⟩
      cases v.result.type.entries? <;> exact ⟨rfl, rfl⟩

theorem read_congr {s s' : Store V} {item : Item}
    (h : ∀ x, item.asVariable? = some x → s x = s' x) : D.read s item = D.read s' item := by
  obtain ⟨slot, kind⟩ := item
  cases kind with
  | «variable» name scope => exact congrArg some (h (name, scope) rfl)
  | _ => rfl

theorem read_update {s : Store V} {item : Item} {x : Var} (h : item.asVariable? ≠ some x) (v : V) :
    D.read (Function.update s x v) item = D.read s item := by
  apply read_congr
  intro y hy
  apply Function.update_of_ne
  rintro rfl
  exact h hy

theorem read_ofVariable (s : Store V) (x : Var) : D.read s (.ofVariable x.1 x.2) = some (s x) := rfl

theorem item_compiles {ctx : Context} {dest : Dest} {n : Nat} {e : Expr} {v : Emitted Value}
    (h : Compiles ctx dest n e v) {x : Var} (hx : v.result.item.asVariable? = some x) :
    direct? ctx.scope e = some x ∨ x ∈ temporaries n (hintsOf dest.own e) ++ named dest := by
  induction h with
  | number | str | styledText | vector => simp [Item.asVariable?, Item.ofKind] at hx
  | name dest n span bound =>
      left
      rw [direct?, resolve?, bound, ← hx]
      rfl
  | computed values placed finish ih =>
      right
      have hnext := (writes_operands values).next_eq
      rw [place_eq, hnext] at placed
      cases placed
      cases hx
      rw [finish.hintsOf_eq, temporaries_append, List.append_assoc]
      exact List.mem_append_right _ (target_mem _ _)
  | cast span type inner hv =>
      rw [direct?, hintsOf]
      exact hv hx

theorem reads_update {s : Store V} {items : List Item} {vals : List V} {x : Var}
    (hx : ∀ item ∈ items, item.asVariable? ≠ some x) (h : Reads D s items vals) (v : V) :
    Reads D (Function.update s x v) items vals := by
  induction h with
  | nil => exact .nil
  | cons head _ ih =>
      rw [List.forall_mem_cons] at hx
      exact .cons ((read_update D hx.1 v).trans head) (ih hx.2)

/-- Entries that do not read the dictionary itself are entered with the values that they have
before the first of them is. -/
theorem exec_fillDict {schema : Schema} {x : Var} {span : Span} {entries : List (String × Item)}
    {fill : List Codeblock} (h : fillDict schema (.ofVariable x.1 x.2) span entries = .ok fill)
    (hx : ∀ item ∈ entries.map Prod.snd, item.asVariable? ≠ some x) {s : Store V} {vals : List V}
    (hread : Reads D s (entries.map Prod.snd) vals) :
    exec D fill s = Function.update s x (D.enter (s x) ((entries.map Prod.fst).zip vals)) := by
  induction entries generalizing fill s vals with
  | nil =>
      cases h
      cases hread
      exact (Function.update_eq_self x s).symm
  | cons entry rest ih =>
      rw [fillDict] at h
      obtain ⟨block, hblock, h⟩ := bind_eq_ok.mp h
      obtain ⟨blocks, hblocks, h⟩ := bind_eq_ok.mp h
      cases h
      obtain _ | ⟨hv, hvs⟩ := hread
      rw [List.map_cons, List.forall_mem_cons] at hx
      have hstep := step_setVar D (.set .dictionary) hblock (.cons rfl (.cons hv .nil)) rfl
      rw [exec_cons, hstep, ih hblocks hx.2 (reads_update D hx.2 hvs _), Function.update_idem,
        Function.update_self]
      rfl

theorem keyed_snd {entries : List (String × Expr)} {vs : List Value}
    (h : vs.length = entries.length) : (keyed entries vs).map Prod.snd = vs :=
  List.map_snd_zip (by simp [h])

theorem keyed_items {entries : List (String × Expr)} {vs : List Value}
    (h : vs.length = entries.length) :
    ((keyed entries vs).map fun e => (e.1, e.2.item)).map Prod.fst = entries.map Prod.fst ∧
      ((keyed entries vs).map fun e => (e.1, e.2.item)).map Prod.snd = vs.map Value.item := by
  have hfst : (keyed entries vs).map Prod.fst = entries.map Prod.fst :=
    List.map_fst_zip (by simp [h])
  have hsnd := congrArg (List.map Value.item) (keyed_snd h)
  rw [List.map_map] at hsnd
  rw [List.map_map, List.map_map]
  exact ⟨hfst, hsnd⟩

/-- Once its operands are there, a computed value reaches its target and nothing else changes.
Only a dictionary is built up in steps, so its entries must not read the target. -/
theorem exec_finish {schema : Schema} {x : Var} {e : Expr} {vs : List Value} {type : ValueType}
    {blocks : List Codeblock} (h : Finishes schema (.ofVariable x.1 x.2) e vs type blocks)
    {scope : Scope} {s₀ s : Store V} {vals : List V}
    (heval : List.Forall₂ (fun o v => eval D scope s₀ o.2 = some v) (operands e) vals)
    (hcont : (operands e).map (fun o => (typeOf scope o.2).bind containerOf?) =
      vs.map fun v => containerOf? v.type)
    (hread : Reads D s (vs.map Value.item) vals)
    (hx : ∀ span entries, e = .dict span entries →
      ∀ item ∈ vs.map Value.item, item.asVariable? ≠ some x) :
    ∃ val, eval D scope s₀ e = some val ∧ exec D blocks s = Function.update s x val := by
  cases h with
  | dict created filled =>
      rename_i span entries create fill
      have hlen : vs.length = entries.length := by
        have := heval.length_eq
        have := hread.length_eq
        simp_all [operands]
      obtain ⟨hkeys, hitems⟩ := keyed_items hlen
      have hents : evalEntries D scope s₀ entries = some vals := by
        rw [evalEntries_eq]
        exact mapM_eq_some_iff.mpr (List.forall₂_map_left_iff.mp heval)
      have hcreate := step_setVar D .createDict (s := s) created .nil rfl
      refine ⟨D.dictOf ((entries.map Prod.fst).zip vals),
        by simp only [eval, hents, bind, Option.bind_some], ?_⟩
      rw [exec_cons, hcreate, exec_fillDict D filled (hitems ▸ hx _ _ rfl)
        (hitems ▸ reads_update D (hx _ _ rfl) hread _), hkeys, Function.update_idem,
        Function.update_self]
      rfl
  | list created =>
      rename_i span items create
      have hitems : evalItems D scope s₀ items = some vals := by
        rw [evalItems_eq]
        exact mapM_eq_some_iff.mpr (List.forall₂_map_left_iff.mp heval)
      exact ⟨_, by simp only [eval, hitems, bind, Option.bind_some],
        step_setVar D .createList created hread rfl⟩
  | binary opSpan left right numbers computed =>
      rename_i op l r block
      obtain _ | ⟨hl, _ | ⟨hr, _ | _⟩⟩ := heval
      exact ⟨_, by simp only [eval, hl, hr, bind, Option.bind_some],
        step_setVar D (.arithmetic op) computed hread rfl⟩
  | index object index indexed key fetched =>
      rename_i o i container block
      obtain _ | ⟨ho, _ | ⟨hi, _ | _⟩⟩ := heval
      have hc : (typeOf scope object).bind containerOf? = some container :=
        (List.cons.inj hcont).1.trans indexed
      exact ⟨_, by simp only [eval, hc, ho, hi, bind, Option.bind_some],
        step_setVar D (.get container) fetched hread rfl⟩

theorem reads_operands {ctx : Context} {n : Nat} {ops : List (String × Expr)}
    {vs : Emitted (List Value)}
    (h : Each (fun hint n e v => Compiles ctx (.temp hint) n e v ∧ ∀ s : Store V,
      (∀ x ∈ variablesOf ctx.scope e, x ∉ temporaries n (hintsOf [hint] e)) →
      ∃ val, eval D ctx.scope s e = some val ∧
        D.read (exec D v.blocks s) v.result.item = some val) n ops vs)
    (hhints : ∀ o ∈ ops, o.1 ∈ allHints)
    (hfresh : ∀ x ∈ variablesAll ctx.scope ops, x ∉ temporaries n (hintsAll ops))
    {s₀ s : Store V} (hagree : ∀ x ∈ variablesAll ctx.scope ops, s x = s₀ x) :
    ∃ vals, List.Forall₂ (fun o v => eval D ctx.scope s₀ o.2 = some v) ops vals ∧
      Reads D (exec D vs.blocks s) (vs.result.map Value.item) vals := by
  induction h generalizing s with
  | nil n => exact ⟨[], .nil, .nil⟩
  | cons head tail ih =>
      rename_i hint n e es v vs
      obtain ⟨hc, hval⟩ := head
      rw [List.forall_mem_cons] at hhints
      rw [variablesAll_cons, List.forall_mem_append] at hfresh hagree
      simp only [hintsAll_cons, temporaries_append, List.mem_append, not_or] at hfresh
      have htail := targets_operands (tail.imp And.left)
      rw [(writes_compiles hc).next_eq] at htail ih
      have hkeep : ∀ x ∈ variablesAll ctx.scope es, exec D v.blocks s x = s₀ x := by
        intro x hx
        rw [exec_of_not_target D fun ht => (hfresh.2 x hx).1 (targets_operand hc ht)]
        exact hagree.2 x hx
      obtain ⟨val, hev, hrd⟩ := hval s fun x hx => (hfresh.1 x hx).1
      obtain ⟨vals, hevs, hrds⟩ := ih hhints.2 (fun x hx => (hfresh.2 x hx).2) hkeep
      rw [eval_congr D e hagree.1] at hev
      -- The item of the first operand is read after the blocks of the others: it is a variable
      -- of the program or an earlier temporary.
      have hstable : ∀ x, v.result.item.asVariable? = some x → x ∉ targets vs.blocks := by
        intro x hx ht
        rcases item_compiles hc hx with hd | hm
        · exact (hfresh.1 x (direct?_mem hd)).2 (htail ht)
        · simp only [Dest.own, named, List.append_nil] at hm
          exact temporaries_apart (hintsOf_subset_allHints hhints.1 e) hm (htail ht)
      refine ⟨val :: vals, .cons hev hevs, .cons ?_ ?_⟩
      · rw [exec_append, ← hrd]
        exact read_congr D fun x hx => exec_of_not_target D (hstable x hx) _
      · rw [exec_append]
        exact hrds

theorem items_operands {ctx : Context} {n : Nat} {ops : List (String × Expr)}
    {vs : Emitted (List Value)} (h : Each (fun hint => Compiles ctx (.temp hint)) n ops vs)
    {item : Item} (hitem : item ∈ vs.result.map Value.item) {x : Var}
    (hx : item.asVariable? = some x) :
    (∃ o ∈ ops, direct? ctx.scope o.2 = some x) ∨ x ∈ temporaries n (hintsAll ops) := by
  induction h with
  | nil => simp at hitem
  | cons hc _ ih =>
      rw [hintsAll_cons, temporaries_append, List.mem_append]
      rw [List.map_cons, List.mem_cons] at hitem
      rcases hitem with rfl | hitem
      · rcases item_compiles hc hx with hd | hm
        · exact .inl ⟨_, List.mem_cons_self, hd⟩
        · simp only [Dest.own, named, List.append_nil] at hm
          exact .inr (.inl hm)
      · rw [(writes_compiles hc).next_eq] at ih
        rcases ih hitem with ⟨o, ho, hd⟩ | hm
        · exact .inl ⟨o, List.mem_cons_of_mem _ ho, hd⟩
        · exact .inr (.inr hm)

/-- The variables that stand as entries in a dictionary literal, apart from casts. -/
def entryVariables (scope : Scope) : Expr → List Var
  | .dict _ entries => entries.filterMap fun entry => direct? scope entry.2
  | .cast _ _ value => entryVariables scope value
  | _ => []

/-- Code computes the value of its expression. A destination in the program must not be an entry
of the dictionary that is built in it. -/
theorem exec_compiles {ctx : Context} {dest : Dest} {n : Nat} {e : Expr} {v : Emitted Value}
    (h : Compiles ctx dest n e v)
    (hfresh : ∀ x ∈ variablesOf ctx.scope e, x ∉ temporaries n (hintsOf dest.own e))
    (hnamed : ∀ x ∈ named dest, x ∉ temporaries n (hintsOf dest.own e) ∧
      x ∉ entryVariables ctx.scope e) (s : Store V) :
    ∃ val, eval D ctx.scope s e = some val ∧
      D.read (exec D v.blocks s) v.result.item = some val := by
  induction h generalizing s with
  | number | str | styledText | vector => exact ⟨_, rfl, rfl⟩
  | name dest n span bound =>
      rename_i name b
      refine ⟨s (name, b.storage.wireName), ?_, rfl⟩
      simp only [eval, resolve?, bound, Option.map_some]
  | computed values placed finish ih =>
      rename_i dest n e vs target next type blocks
      have hnext := (writes_operands values).next_eq
      rw [place_eq, hnext] at placed
      cases placed
      rw [variablesOf_computed finish] at hfresh
      simp only [finish.hintsOf_eq, temporaries_append, List.mem_append, not_or] at hfresh hnamed
      obtain ⟨vals, hevs, hrds⟩ := reads_operands D (s := s)
        (ih.imp fun ⟨hc, hval⟩ => ⟨hc, fun s hf => hval hf (by simp [named]) s⟩)
        (fun o ho => operands_hint ho) (fun x hx => (hfresh x hx).1) fun _ _ => rfl
      have hcont := containers_eq (values.imp typeOf_compiles)
      obtain ⟨val, hev, hex⟩ := exec_finish D finish hevs hcont hrds (by
        rintro span entries rfl item hitem hx
        -- The target is a new temporary or a destination in the program.
        rcases List.mem_append.mp (target_mem dest (n + (hintsAll _).length)) with ht | ht
        · rcases items_operands values hitem hx with ⟨o, ho, hd⟩ | hm
          · exact (hfresh _ (List.mem_flatMap.mpr ⟨o, ho, direct?_mem hd⟩)).2 ht
          · exact temporaries_apart (hintsAll_subset fun o ho => operands_hint ho) hm ht
        · rcases items_operands values hitem hx with ⟨o, ho, hd⟩ | hm
          · obtain ⟨entry, he, rfl⟩ := List.mem_map.mp ho
            exact (hnamed _ ht).2 (List.mem_filterMap.mpr ⟨entry, he, hd⟩)
          · exact (hnamed _ ht).1.1 hm)
      refine ⟨val, hev, ?_⟩
      rw [exec_append, hex, read_ofVariable, Function.update_self]
  | cast span type inner hv =>
      rw [hintsOf] at hfresh hnamed
      exact hv hfresh hnamed s

/-- Code for an expression whose variables are not named like later temporaries leaves all other
variables as they are, and its item holds the value that the expression had before. -/
theorem genValue_meaning {ctx : Context} {hint : String} {n : Nat} {e : Expr} {v : Emitted Value}
    (h : genValue ctx (.temp hint) n e = .ok v)
    (hfresh : ∀ x ∈ variablesOf ctx.scope e, ¬ NamedFrom (hint :: operandHints) n x)
    (s : Store V) :
    (∀ x, ¬ NamedFrom (hint :: operandHints) n x → exec D v.blocks s x = s x) ∧
      ∃ val, eval D ctx.scope s e = some val ∧
        D.read (exec D v.blocks s) v.result.item = some val := by
  have hc := genValue_eq_ok.mp h
  have htemp {x : Var} : x ∈ temporaries n (hintsOf [hint] e) →
      NamedFrom (hint :: operandHints) n x :=
    namedFrom_of_mem_temporaries (hintsOf_subset [hint] e)
  refine ⟨fun x hx => ?_, ?_⟩
  · exact exec_of_not_target D (fun ht => hx (htemp (targets_operand hc ht))) s
  · exact exec_compiles D hc (fun x hx ht => hfresh x hx (htemp ht)) (by simp [named]) s

/-- The value of `{"a": x + x, "b": [x]}["a"]`. -/
theorem genValue_meaning_nested :
    let ctx : Context := ⟨leastSchema, Scope.empty.define "x" .num .var⟩
    let x : Expr := .variable default "x"
    let e : Expr := .index default (.dict default [("a", .binary default .add default x x),
      ("b", .list default [x])]) (.str default "a")
    ∃ v, genValue ctx (.temp "__value") 0 e = .ok v ∧
      (∀ y ∈ variablesOf ctx.scope e, ¬ NamedFrom ("__value" :: operandHints) 0 y) ∧
      (∀ y, ¬ NamedFrom ("__value" :: operandHints) 0 y →
        exec symbolic v.blocks .initial y = .initial y) ∧
      ∃ val, eval symbolic ctx.scope .initial e = some val ∧
        symbolic.read (exec symbolic v.blocks .initial) v.result.item = some val := by
  intro ctx x e
  have hfresh : ∀ y ∈ variablesOf ctx.scope e, ¬ NamedFrom ("__value" :: operandHints) 0 y := by
    intro y hy
    have hx : y = ("x", "line") := by simpa using (show y ∈ List.replicate 3 ("x", "line") from hy)
    exact not_namedFrom (by rw [hx]; decide) 0
  exact ⟨_, rfl, hfresh, genValue_meaning symbolic rfl hfresh .initial⟩

end DiamondScript.Machine
