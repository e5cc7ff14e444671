import DiamondScript.Proofs.Assignment

namespace DiamondScript

/-- How many index reads lead from a variable to an expression, casts aside. -/
def Expr.indexReads? : Expr → Option Nat
  | .variable .. => some 0
  | .index _ object _ => object.indexReads?.map (· + 1)
  | .cast _ _ value => value.indexReads?
  | _ => none

namespace Machine

open Codegen

/-- After a write the path to the container leads to the old container with the new element. -/
def TakesEffect (scope : Scope) (object index value : Expr) (blocks : List Codeblock) : Prop :=
  ∀ (V : Type) (D : Domain V) (s : Store V) (container : Container) (old key new : V),
    (typeOf scope object).bind containerOf? = some container →
    eval D scope s object = some old → eval D scope s index = some key →
    eval D scope s value = some new →
    eval D scope (exec D blocks s) object = some (D.set container old key new)

theorem item_indexReads {ctx : Context} {dest : Dest} {n : Nat} {e : Expr} {v : Emitted Value}
    (h : Compiles ctx dest n e v) {d : Nat} (hreads : e.indexReads? = some d) :
    ∃ x : Var, v.result.item = .ofVariable x.1 x.2 ∧
      direct? ctx.scope e = if d = 0 then some x else none := by
  induction h with
  | number | str | styledText | vector => simp [Expr.indexReads?] at hreads
  | name dest n span bound =>
      rename_i name b
      cases hreads
      exact ⟨(name, b.storage.wireName), rfl,
        by simp only [direct?, resolve?, bound, Option.map_some, if_true]⟩
  | computed values placed finish =>
      rename_i dest _ _ vs _ _ _ _ _
      obtain ⟨result, before, last⟩ := vs
      rw [place_eq] at placed
      cases placed
      refine ⟨_, rfl, ?_⟩
      cases finish with
      | index object index =>
          obtain ⟨d, -, rfl⟩ := Option.map_eq_some_iff.mp hreads
          rfl
      | dict | list | binary => simp [Expr.indexReads?] at hreads
  | cast span type inner hv => exact hv hreads

theorem Term.set_ne (container : Container) (old key new : Term) :
    Term.set container old key new ≠ old := by
  intro h
  have hsize := congrArg sizeOf h
  simp only [Term.set.sizeOf_spec] at hsize
  omega

theorem namedFrom_of_elementOperands {n : Nat} {object index value : Expr} {y : Var}
    (hy : y ∈ temporaries n (hintsAll (elementOperands object index value))) :
    NamedFrom allHints n y :=
  namedFrom_of_mem_temporaries (hintsAll_subset fun _ ho => elementOperands_hint ho) hy

theorem reads_elementOperands {ctx : Context} {n : Nat} {object index value : Expr}
    {vs : Emitted (List Value)}
    (h : Each (fun hint => Compiles ctx (.temp hint)) n (elementOperands object index value) vs)
    (hfresh : ∀ y ∈ variablesAll ctx.scope (elementOperands object index value),
      ¬ NamedFrom allHints n y) {V : Type} (D : Domain V) (s : Store V) :
    ∃ old key new, eval D ctx.scope s object = some old ∧ eval D ctx.scope s index = some key ∧
      eval D ctx.scope s value = some new ∧
      Reads D (exec D vs.blocks s) (vs.result.map Value.item) [old, key, new] := by
  obtain ⟨vals, hevs, hrds⟩ := reads_operands D (s := s)
    (h.imp fun hc => ⟨hc, fun s hf => exec_compiles D hc hf (by simp [named]) s⟩)
    (fun _ ho => elementOperands_hint ho)
    (fun y hy ht => hfresh y hy (namedFrom_of_elementOperands ht)) fun _ _ => rfl
  obtain ⟨old, _, hold, htail, rfl⟩ := List.forall₂_cons_left_iff.mp hevs
  obtain ⟨key, _, hkey, hlast, rfl⟩ := List.forall₂_cons_left_iff.mp htail
  obtain ⟨new, _, hnew, hnil, rfl⟩ := List.forall₂_cons_left_iff.mp hlast
  cases hnil
  exact ⟨old, key, new, hold, hkey, hnew, hrds⟩

section

variable {ctx : Context} {n d : Nat} {object index value : Expr} {span : Span} {em : Emitted Unit}
  (h : genSetIndex ctx n object index value span = .ok em)
  (hreads : object.indexReads? = some d)
  (hfresh : ∀ y ∈ variablesAll ctx.scope (elementOperands object index value),
    ¬ NamedFrom allHints n y)

include h hreads hfresh

theorem exec_genSetIndex {V : Type} (D : Domain V) (s : Store V) :
    ∃ x container old key new, direct? ctx.scope object = (if d = 0 then some x else none) ∧
      (d ≠ 0 → NamedFrom allHints n x) ∧
      (typeOf ctx.scope object).bind containerOf? = some container ∧
      eval D ctx.scope s object = some old ∧ eval D ctx.scope s index = some key ∧
      eval D ctx.scope s value = some new ∧
      exec D em.blocks s x = D.set container old key new ∧
      ∀ y, y ≠ x → ¬ NamedFrom allHints n y → exec D em.blocks s y = s y := by
  obtain ⟨vs, o, i, v, container, block, hops, hres, hcontainer, -, -, hblock, rfl⟩ :=
    genSetIndex_eq_ok h
  obtain ⟨old, key, new, hold, hkey, hnew, hrds⟩ := reads_elementOperands hops hfresh D s
  have hobject : ∃ ov, Compiles ctx (.temp "__obj") n object ov ∧ ov.result = o := by
    obtain _ | ⟨head, -⟩ := hops
    exact ⟨_, head, (List.cons.inj hres).1⟩
  obtain ⟨ov, hobject, rfl⟩ := hobject
  obtain ⟨x, hitem, hdirect⟩ := item_indexReads hobject hreads
  have hcont := containers_eq (hops.imp typeOf_compiles)
  rw [hres] at hrds hcont
  obtain _ | ⟨hread, hinputs⟩ := hrds
  rw [hitem, read_ofVariable, Option.some.injEq] at hread
  rw [hitem] at hblock
  have hstep := step_setVar D (.set container) hblock hinputs (v := D.set container old key new)
    (by rw [hread]; rfl)
  refine ⟨x, container, old, key, new, hdirect, fun hd => ?_,
    (List.cons.inj hcont).1.trans hcontainer, hold, hkey, hnew, ?_, fun y hy hnot => ?_⟩
  · have hx : ov.result.item.asVariable? = some x := by rw [hitem]; rfl
    rcases item_compiles hobject hx with hdir | hx
    · simp [hdirect, hd] at hdir
    · rw [Dest.own, named, List.append_nil] at hx
      exact namedFrom_of_mem_temporaries (hintsOf_subset_allHints (by decide) object) hx
  · rw [exec_append, exec_cons, hstep, exec_nil, Function.update_self]
  · rw [exec_append, exec_cons, hstep, exec_nil, Function.update_of_ne hy]
    refine exec_of_not_target D (fun ht => hnot ?_) s
    exact namedFrom_of_elementOperands (targets_operands hops ht)

theorem eval_genSetIndex {V : Type} (D : Domain V) (s : Store V) :
    ∃ container old key new, (typeOf ctx.scope object).bind containerOf? = some container ∧
      eval D ctx.scope s object = some old ∧ eval D ctx.scope s index = some key ∧
      eval D ctx.scope s value = some new ∧
      eval D ctx.scope (exec D em.blocks s) object =
        some (if d = 0 then D.set container old key new else old) := by
  obtain ⟨x, container, old, key, new, hdirect, htemp, hcontainer, hold, hkey, hnew, hset,
    hother⟩ := exec_genSetIndex h hreads hfresh D s
  refine ⟨container, old, key, new, hcontainer, hold, hkey, hnew, ?_⟩
  by_cases hd : d = 0
  · rw [if_pos hd] at hdirect
    rw [eval_direct D hdirect, hset, if_pos hd]
  · rw [if_neg hd, ← hold]
    refine eval_congr D object fun y hy => ?_
    have hnot := hfresh y (List.mem_append_left _ hy)
    exact hother y (fun heq => hnot (heq ▸ htemp hd)) hnot

theorem exec_genSetIndex_other {V : Type} (D : Domain V) (s : Store V) {y : Var}
    (hnot : ¬ NamedFrom allHints n y) (hy : direct? ctx.scope object ≠ some y) :
    exec D em.blocks s y = s y := by
  obtain ⟨x, -, -, -, -, hdirect, htemp, -, -, -, -, -, hother⟩ :=
    exec_genSetIndex h hreads hfresh D s
  refine hother y ?_ hnot
  rintro rfl
  by_cases hd : d = 0
  · exact hy (hdirect.trans (if_pos hd))
  · exact hnot (htemp hd)

/-- Through a variable itself an index assignment takes effect. Through any index read it does not:
the element is replaced in a temporary, and no variable of the program changes. -/
theorem genSetIndex_meaning :
    (TakesEffect ctx.scope object index value em.blocks ↔ d = 0) ∧
    ∀ (V : Type) (D : Domain V) (s : Store V),
      (∃ container old key new, (typeOf ctx.scope object).bind containerOf? = some container ∧
        eval D ctx.scope s object = some old ∧ eval D ctx.scope s index = some key ∧
        eval D ctx.scope s value = some new ∧
        eval D ctx.scope (exec D em.blocks s) object =
          some (if d = 0 then D.set container old key new else old)) ∧
      ∀ y, ¬ NamedFrom allHints n y → direct? ctx.scope object ≠ some y →
        exec D em.blocks s y = s y := by
  refine ⟨⟨fun htakes => ?_, fun hd V D s container old key new hc ho hk hn => ?_⟩,
    fun V D s => ⟨eval_genSetIndex h hreads hfresh D s,
      fun y hnot hy => exec_genSetIndex_other h hreads hfresh D s hnot hy⟩⟩
  · obtain ⟨container, old, key, new, hc, ho, hk, hn, hafter⟩ :=
      eval_genSetIndex h hreads hfresh symbolic .initial
    by_contra hd
    rw [htakes _ _ _ _ _ _ _ hc ho hk hn, if_neg hd] at hafter
    exact Term.set_ne container old key new (Option.some.inj hafter)
  · obtain ⟨container', old', key', new', hc', ho', hk', hn', hafter⟩ :=
      eval_genSetIndex h hreads hfresh D s
    cases hc.symm.trans hc'
    cases ho.symm.trans ho'
    cases hk.symm.trans hk'
    cases hn.symm.trans hn'
    rw [hafter, if_pos hd]

end

theorem genSetIndex_meaning_entry :
    let ctx : Context := ⟨leastSchema, Scope.empty.define "x" (.declared .dict [.any]) .game⟩
    let object : Expr := .variable default "x"
    let value : Expr := .dict default [("b", object)]
    ∃ em, genSetIndex ctx 0 object (.str default "a") value default = .ok em ∧
      object.indexReads? = some 0 ∧
      (∀ y ∈ variablesAll ctx.scope (elementOperands object (.str default "a") value),
        ¬ NamedFrom allHints 0 y) ∧
      TakesEffect ctx.scope object (.str default "a") value em.blocks := by
  intro ctx object value
  have hfresh : ∀ y ∈ variablesAll ctx.scope (elementOperands object (.str default "a") value),
      ¬ NamedFrom allHints 0 y := by
    intro y hy
    have hx : y = ("x", "unsaved") := by
      simpa using (show y ∈ List.replicate 2 ("x", "unsaved") from hy)
    exact not_namedFrom (by rw [hx]; decide) 0
  have hok : ∃ em, genSetIndex ctx 0 object (.str default "a") value default = .ok em := ⟨_, rfl⟩
  obtain ⟨em, h⟩ := hok
  exact ⟨em, h, rfl, hfresh, (genSetIndex_meaning h rfl hfresh).1.mpr rfl⟩

/-- The assignment `x["a"]["b"] = 0` changes a copy of the entry that it is meant for. -/
theorem genSetIndex_nested :
    let ctx : Context := ⟨leastSchema,
      Scope.empty.define "x" (.declared .dict [.declared .dict [.num]]) .game⟩
    let object : Expr := .index default (.variable default "x") (.str default "a")
    let zero : Expr := .number default (.zero false)
    ∃ em, genSetIndex ctx 0 object (.str default "b") zero default = .ok em ∧
      object.indexReads? = some 1 ∧
      (∀ y ∈ variablesAll ctx.scope (elementOperands object (.str default "b") zero),
        ¬ NamedFrom allHints 0 y) ∧
      ¬ TakesEffect ctx.scope object (.str default "b") zero em.blocks := by
  intro ctx object zero
  refine ⟨_, rfl, rfl, fun y hy => ?_, fun htakes => ?_⟩
  · have hx : y = ("x", "unsaved") := List.mem_singleton.mp hy
    exact not_namedFrom (by rw [hx]; decide) 0
  · have hafter := htakes Term symbolic .initial .dictionary _ _ _ rfl rfl rfl rfl
    exact Term.set_ne _ _ _ _ (Option.some.inj hafter).symm

end Machine
end DiamondScript
