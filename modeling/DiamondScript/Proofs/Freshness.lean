import DiamondScript.Codegen.Definition
import DiamondScript.Proofs.Assignment

namespace DiamondScript.Machine

open Codegen

theorem targets_args {b : Codeblock} {x : Var} (h : x ∈ targets [b]) :
    ∃ item ∈ b.args, item.asVariable? = some x := by
  obtain ⟨b', hb, hx⟩ := List.mem_filterMap.mp h
  rw [List.mem_singleton.mp hb] at hx
  obtain ⟨i, hi, rfl⟩ := Option.map_eq_some_iff.mp hx
  unfold instruction? at hi
  split at hi
  case isFalse => cases hi
  case isTrue =>
    split at hi
    case h_1 operation first inputs _ hargs =>
      obtain ⟨x, hfirst, rfl⟩ := Option.map_eq_some_iff.mp hi
      exact ⟨first, by rw [hargs]; exact List.mem_cons_self, hfirst⟩
    case h_2 => cases hi

theorem asVariable?_of_mem_numberSlots {items : List Item} {slot : Nat} {item : Item}
    (h : item ∈ numberSlots slot items) :
    ∃ item' ∈ items, item.asVariable? = item'.asVariable? := by
  induction items generalizing slot with
  | nil => cases h
  | cons first rest ih =>
      rcases List.mem_cons.mp h with rfl | h
      · exact ⟨first, List.mem_cons_self, rfl⟩
      · obtain ⟨item', hm, heq⟩ := ih h
        exact ⟨item', List.mem_cons_of_mem _ hm, heq⟩

theorem newBlock_args {schema : Schema} {kind : String} {action : Option String}
    {args : List Item} {span : Span} {b : Codeblock}
    (h : newBlock schema kind action args span = .ok b) : b.args = numberSlots 0 args := by
  obtain ⟨spec, -, rfl⟩ := newBlock_eq_ok.mp h
  rfl

theorem writes_block {ctx : Context} {n : Nat} {ops : List (String × Expr)}
    {vs : Emitted (List Value)} (h : Each (fun hint => Compiles ctx (.temp hint)) n ops vs)
    {block : Codeblock} {args : List Item} (hargs : block.args = numberSlots 0 args)
    (hitems : ∀ item ∈ args, ∃ v ∈ vs.result, item.asVariable? = v.item.asVariable?) :
    Writes n (hintsAll ops) (variablesAll ctx.scope ops) (vs.blocks ++ [block]) vs.next := by
  have hops := writes_operands h
  refine ⟨hops.next_eq, fun x hx => ?_, fun x hx => ?_⟩
  · rw [targets_append] at hx
    rcases List.mem_append.mp hx with hx | hx
    · exact List.mem_append_left _ (targets_operands h hx)
    · obtain ⟨item, hm, hitem⟩ := targets_args hx
      rw [hargs] at hm
      obtain ⟨item', hm, heq⟩ := asVariable?_of_mem_numberSlots hm
      obtain ⟨v, hv, heq'⟩ := hitems item' hm
      have hx := (heq.trans heq').symm.trans hitem
      rcases items_operands h (List.mem_map_of_mem hv) hx with ⟨o, ho, hd⟩ | hx
      · exact List.mem_append_right _ (List.mem_flatMap.mpr ⟨o, ho, direct?_mem hd⟩)
      · exact List.mem_append_left _ hx
  · rw [targets_append]
    exact List.mem_append_left _ (hops.all hx)

theorem writes_assignInto {ctx : Context} {name : String} {storage : Storage}
    {declared : ValueType} {n : Nat} {value : Expr} {span : Span} {em : Emitted Unit}
    (h : assignInto ctx name storage declared n value span = .ok em) :
    Writes n (hintsOf [] value) [(name, storage.wireName)] em.blocks em.next := by
  obtain ⟨v, copy, hc, -, hcopy, rfl⟩ := assignInto_eq_ok.mp h
  have hv := writes_compiles hc
  refine ⟨hv.next_eq, fun x hx => ?_, fun x hx => ?_⟩
  · rw [targets_append] at hx
    rcases List.mem_append.mp hx with hx | hx
    · exact hv.within hx
    · exact List.mem_append_right _ (targets_copies hcopy hx)
  · rw [targets_append]
    exact List.mem_append_left _ (hv.all hx)

theorem writes_genSetIndex {ctx : Context} {n : Nat} {object index value : Expr} {span : Span}
    {em : Emitted Unit} (h : genSetIndex ctx n object index value span = .ok em) :
    Writes n (hintsAll (elementOperands object index value))
      (variablesAll ctx.scope (elementOperands object index value)) em.blocks em.next := by
  obtain ⟨vs, o, i, v, container, block, hops, hres, -, -, -, hblock, rfl⟩ := genSetIndex_eq_ok h
  refine writes_block hops (newBlock_args hblock) ?_
  rw [hres]
  simp

def argumentOperands (args : List Expr) : List (String × Expr) :=
  args.map fun arg => ("__carg", arg)

theorem matchArgs_eq_ok {ctx : Context} {callee : Callee} {span : Span}
    {params : List Expectation} {args : List Expr} {i n : Nat} {cursor : Option Nat}
    {em : Emitted (List Item × Option Nat)}
    (h : matchArgs ctx callee span params i cursor n args = .ok em) :
    ∃ vs, Each (fun hint => Compiles ctx (.temp hint)) n (argumentOperands args) vs ∧
      em.blocks = vs.blocks ∧ em.next = vs.next ∧
      ∀ item ∈ em.result.1, ∃ v ∈ vs.result, item.kind = v.item.kind := by
  induction args generalizing i n cursor em with
  | nil =>
      cases h
      exact ⟨_, .nil n, rfl, rfl, by simp⟩
  | cons arg rest ih =>
      rw [matchArgs] at h
      obtain ⟨v, hv, h⟩ := bind_eq_ok.mp h
      obtain ⟨pos, -, h⟩ := bind_eq_ok.mp h
      obtain ⟨em', hem, h⟩ := bind_eq_ok.mp h
      cases h
      obtain ⟨vs, hvs, hblocks, hnext, hitems⟩ := ih hem
      refine ⟨_, .cons (genValue_eq_ok.mp hv) hvs, by rw [hblocks], hnext, ?_⟩
      rw [List.forall_mem_cons]
      refine ⟨⟨v.result, List.mem_cons_self, rfl⟩, fun item hm => ?_⟩
      obtain ⟨w, hw, heq⟩ := hitems item hm
      exact ⟨w, List.mem_cons_of_mem _ hw, heq⟩

theorem resolveArgs_eq_ok {ctx : Context} {callee : Callee} {span : Span}
    {params : List Expectation} {n : Nat} {args : List Expr} {em : Emitted (List Item)}
    (h : resolveArgs ctx callee span params n args = .ok em) :
    ∃ vs, Each (fun hint => Compiles ctx (.temp hint)) n (argumentOperands args) vs ∧
      em.blocks = vs.blocks ∧ em.next = vs.next ∧
      ∀ item ∈ em.result, ∃ v ∈ vs.result, item.kind = v.item.kind := by
  rw [resolveArgs] at h
  obtain ⟨matched, hm, h⟩ := bind_eq_ok.mp h
  obtain ⟨⟨items, cursor⟩, blocks, next⟩ := matched
  dsimp only at h
  split at h
  · simp at h
  · cases h
    exact matchArgs_eq_ok hm

def Calls (ctx : Context) (n : Nat) (args : List Expr) (em : Emitted Unit) : Prop :=
  ∃ vs items block, Each (fun hint => Compiles ctx (.temp hint)) n (argumentOperands args) vs ∧
    (∀ item ∈ items, ∃ v ∈ vs.result, item.kind = v.item.kind) ∧
    block.args = numberSlots 0 items ∧ em = ⟨(), vs.blocks ++ [block], vs.next⟩

theorem calls_of_resolveArgs {ctx : Context} {callee : Callee} {span : Span}
    {params : List Expectation} {n : Nat} {args : List Expr} {items : Emitted (List Item)}
    (h : resolveArgs ctx callee span params n args = .ok items) {block : Codeblock}
    (hblock : block.args = numberSlots 0 items.result) :
    Calls ctx n args ⟨(), items.blocks ++ [block], items.next⟩ := by
  obtain ⟨vs, hops, hblocks, hnext, hitems⟩ := resolveArgs_eq_ok h
  rw [hblocks, hnext]
  exact ⟨vs, items.result, block, hops, hitems, hblock, rfl⟩

theorem calls_genCall {ctx : Context} {n : Nat} {name : String} {args : List Expr} {span : Span}
    {em : Emitted Unit} (h : genCall ctx n name args span = .ok em) : Calls ctx n args em := by
  obtain ⟨signature, items, block, -, hargs, hblock, rfl⟩ := genCall_eq_ok h
  have hslots := newBlock_args hblock
  exact calls_of_resolveArgs hargs hslots

theorem calls_genAction {ctx : Context} {n : Nat} {ref : ActionRef} {args : List Expr}
    {span : Span} {em : Emitted Unit} (h : genAction ctx n ref args span = .ok em) :
    Calls ctx n args em := by
  obtain ⟨spec, kind, items, block, -, -, hargs, hblock, rfl⟩ := genAction_eq_ok h
  have hslots := newBlock_args hblock
  exact calls_of_resolveArgs hargs hslots

theorem writes_calls {ctx : Context} {n : Nat} {args : List Expr} {em : Emitted Unit}
    (h : Calls ctx n args em) :
    Writes n (hintsAll (argumentOperands args)) (variablesAll ctx.scope (argumentOperands args))
      em.blocks em.next := by
  obtain ⟨vs, items, block, hops, hitems, hargs, rfl⟩ := h
  refine writes_block hops hargs fun item hitem => ?_
  obtain ⟨v, hv, hkind⟩ := hitems item hitem
  exact ⟨v, hv, by rw [Item.asVariable?, Item.asVariable?, hkind]⟩

def stmtScope (scope : Scope) : Stmt → Scope
  | .var d => scope.define d.name d.type d.storage
  | .expr _ => scope

def stmtVariables (scope : Scope) : Stmt → List Var
  | .var d =>
    (d.name, d.storage.wireName) ::
      (d.value.toList.flatMap (variablesOf (scope.define d.name d.type d.storage)))
  | .expr e => variablesOf scope e

def stmtHints : Stmt → List String
  | .var d => d.value.toList.flatMap (hintsOf [])
  | .expr (.assign _ _ value) => hintsOf [] value
  | .expr (.setIndex _ object index value) => hintsAll (elementOperands object index value)
  | .expr (.call _ _ args) | .expr (.action _ _ args) => hintsAll (argumentOperands args)
  | .expr _ => []

theorem variablesAll_argumentOperands (scope : Scope) (args : List Expr) :
    variablesAll scope (argumentOperands args) =
      (Expr.itemNames args).filterMap (resolve? scope) := by
  simp only [variablesAll, argumentOperands, List.flatMap_map, itemNames_eq,
    List.filterMap_flatMap, variablesOf]

theorem variablesAll_elementOperands (scope : Scope) (object index value : Expr) (span : Span) :
    variablesAll scope (elementOperands object index value) =
      variablesOf scope (.setIndex span object index value) := by
  simp only [variablesAll, elementOperands, List.flatMap_cons, List.flatMap_nil, List.append_nil,
    variablesOf, Expr.names, List.filterMap_append]

/-- A statement takes its temporaries and writes besides them only variables of its own. -/
theorem writes_genStmt {ctx : Context} {n : Nat} {stmt : Stmt} {em : Emitted Scope}
    (h : genStmt ctx n stmt = .ok em) :
    em.result = stmtScope ctx.scope stmt ∧
      Writes n (stmtHints stmt) (stmtVariables ctx.scope stmt) em.blocks em.next := by
  cases stmt with
  | var d =>
      obtain ⟨storage, name, type, value, span⟩ := d
      cases value with
      | none =>
          cases h
          exact ⟨rfl, .nil n _⟩
      | some value =>
          obtain ⟨em', h', rfl⟩ := genStmt_var.mp h
          refine ⟨rfl, ?_⟩
          have hw := writes_assignInto h'
          simp only [stmtHints, stmtVariables, Option.toList_some, List.flatMap_singleton]
          exact hw.mono (by simp)
  | expr e =>
      cases e with
      | assign span name value =>
          obtain ⟨b, em', hb, h', rfl⟩ := genStmt_assign.mp h
          refine ⟨rfl, (writes_assignInto h').mono ?_⟩
          simp [stmtVariables, variablesOf, Expr.names, resolve?, hb]
      | setIndex span object index value =>
          obtain ⟨em', h', rfl⟩ := genStmt_setIndex.mp h
          refine ⟨rfl, ?_⟩
          rw [stmtVariables, ← variablesAll_elementOperands]
          exact writes_genSetIndex h'
      | call span name args =>
          obtain ⟨em', h', hem⟩ := bind_eq_ok.mp h
          cases hem
          refine ⟨rfl, ?_⟩
          rw [stmtVariables, variablesOf, Expr.names, ← variablesAll_argumentOperands]
          exact writes_calls (calls_genCall h')
      | action span ref args =>
          obtain ⟨em', h', hem⟩ := bind_eq_ok.mp h
          cases hem
          refine ⟨rfl, ?_⟩
          rw [stmtVariables, variablesOf, Expr.names, ← variablesAll_argumentOperands]
          exact writes_calls (calls_genAction h')
      | _ => simp [genStmt, bind_eq_ok] at h

def bodyHints (body : List Stmt) : List String := body.flatMap stmtHints

def bodyVariables : Scope → List Stmt → List Var
  | _, [] => []
  | scope, stmt :: rest => stmtVariables scope stmt ++ bodyVariables (stmtScope scope stmt) rest

theorem writes_genBody {schema : Schema} {scope : Scope} {n : Nat} {body : List Stmt}
    {blocks : List Codeblock} (h : genBody schema scope n body = .ok blocks) :
    ∃ next, Writes n (bodyHints body) (bodyVariables scope body) blocks next := by
  induction body generalizing scope n blocks with
  | nil =>
      cases h
      exact ⟨n, .nil n _⟩
  | cons stmt rest ih =>
      rw [genBody] at h
      obtain ⟨em, hem, h⟩ := bind_eq_ok.mp h
      obtain ⟨blocks', hblocks, h⟩ := bind_eq_ok.mp h
      cases h
      obtain ⟨hscope, hstmt⟩ := writes_genStmt hem
      rw [hscope] at hblocks
      obtain ⟨next, hrest⟩ := ih hblocks
      exact ⟨next, hstmt.append hrest⟩

theorem stmtHints_subset (stmt : Stmt) : stmtHints stmt ⊆ allHints := by
  have hvalue : ∀ e, hintsOf [] e ⊆ allHints := fun e hint hm =>
    List.mem_cons_of_mem _ (List.mem_cons_of_mem _ (hintsOf_subset [] e hm))
  have hargs : ∀ args, hintsAll (argumentOperands args) ⊆ allHints := fun args =>
    hintsAll_subset fun o ho => by
      obtain ⟨_, -, rfl⟩ := List.mem_map.mp ho
      simp [allHints]
  cases stmt with
  | var d =>
      intro hint hm
      obtain ⟨e, -, hm⟩ := List.mem_flatMap.mp hm
      exact hvalue e hm
  | expr e =>
      cases e with
      | assign _ _ value => exact hvalue value
      | setIndex => exact hintsAll_subset fun o => elementOperands_hint
      | call _ _ args | action _ _ args => exact hargs args
      | _ => simp [stmtHints]

theorem nodup_temporaries {hints : List String} (hsub : hints ⊆ allHints) (n : Nat) :
    (temporaries n hints).Nodup := by
  induction hints generalizing n with
  | nil => simp [temporaries]
  | cons hint rest ih =>
      obtain ⟨hhint, hrest⟩ := List.cons_subset.mp hsub
      rw [← List.singleton_append, temporaries_append, List.nodup_append]
      refine ⟨by simp [temporaries], ih hrest _, fun x hx y hy he => ?_⟩
      exact temporaries_apart (by simpa using hhint) hx (he ▸ hy)

/-- A function with a body, and the names in force around it. -/
structure Routine where
  scope : Scope
  func : FuncDef
  body : List Stmt

def routines : Scope → List Definition → List Routine
  | _, [] => []
  | scope, .var d :: rest => routines (scope.define d.name d.type d.storage) rest
  | scope, .func d :: rest =>
    let inner := scope.defineFunction ⟨d.name, d.params⟩
    match d.body with
    | none => routines inner rest
    | some body => ⟨inner, d, body⟩ :: routines inner rest

namespace Routine

variable (r : Routine)

def inner : Scope :=
  r.func.params.foldl (fun s p => s.define p.name (innerType p) .line) r.scope.push

/-- The variables that parameters and body declare, read or assign. -/
def ownVariables : List Var :=
  r.func.params.map (fun p => (p.name, Storage.line.wireName)) ++ bodyVariables r.inner r.body

def hints : List String := bodyHints r.body

end Routine

def Routine.temporaries (r : Routine) : List Var := Codegen.temporaries 0 r.hints

theorem genParams_scope {func : FuncDef} {scope inner : Scope} {i : Nat} {params : List Param}
    {items : List Item} (h : genParams func scope i params = .ok (items, inner)) :
    inner = params.foldl (fun s p => s.define p.name (innerType p) .line) scope := by
  induction params generalizing scope i items with
  | nil =>
      cases h
      rfl
  | cons p rest ih =>
      rw [genParams] at h
      split at h
      · simp at h
      · obtain ⟨⟨items', inner'⟩, hrest, h⟩ := bind_eq_ok.mp h
        cases h
        exact ih hrest

theorem writes_genFunction {schema : Schema} {r : Routine} {line : Codeline}
    (h : genFunction schema r.scope r.func r.body = .ok line) :
    ∃ next, Writes 0 r.hints r.ownVariables line.blocks next := by
  rw [genFunction] at h
  obtain ⟨⟨params, inner⟩, hparams, h⟩ := bind_eq_ok.mp h
  obtain ⟨head, hhead, h⟩ := bind_eq_ok.mp h
  obtain ⟨blocks, hblocks, h⟩ := bind_eq_ok.mp h
  cases h
  -- The block at the head of the line writes nothing, so the counter starts with the body.
  have hinner : inner = r.inner := genParams_scope hparams
  rw [hinner] at hblocks
  obtain ⟨next, hw⟩ := writes_genBody hblocks
  have hnone : targets [head.withData r.func.name] = [] := by
    obtain ⟨spec, -, rfl⟩ := newBlock_eq_ok.mp hhead
    rfl
  refine ⟨next, hw.next_eq, ?_, ?_⟩
  · rw [← List.singleton_append, targets_append, hnone]
    exact (hw.mono (List.subset_append_right _ _)).within
  · rw [← List.singleton_append, targets_append, hnone]
    exact hw.all

theorem run_lines {schema : Schema} {definitions : List Definition} {s s' : State}
    (h : Codegen.run schema s definitions = (s', none)) :
    ∃ lines, s'.lines = s.lines ++ lines ∧
      List.Forall₂ (fun line r => genFunction schema r.scope r.func r.body = .ok line) lines
        (routines s.scope definitions) := by
  induction definitions generalizing s with
  | nil =>
      cases h
      exact ⟨[], by rw [List.append_nil], .nil⟩
  | cons d rest ih =>
      rw [Codegen.run] at h
      split at h
      case h_2 => cases h
      case h_1 t hd =>
        obtain ⟨lines, hlines, hall⟩ := ih h
        cases d with
        | var d =>
            rw [genDefinition] at hd
            split at hd
            · simp at hd
            · cases hd
              exact ⟨lines, hlines, hall⟩
        | func d =>
            rw [genDefinition] at hd
            rw [routines]
            cases hbody : d.body with
            | none =>
                simp only [hbody] at hd ⊢
                cases hd
                exact ⟨lines, hlines, hall⟩
            | some body =>
                simp only [hbody] at hd ⊢
                obtain ⟨line, hline, hd⟩ := bind_eq_ok.mp hd
                cases hd
                exact ⟨line :: lines, by rw [hlines, List.append_assoc, List.singleton_append],
                  .cons hline hall⟩

/-- The temporaries of each line are named by a hint and a number and differ from one another; the
blocks of the line write all of them and besides them only variables of the function. They are
fresh exactly if no line-scoped variable of the function is named by a hint of its body and the
position of that hint. -/
theorem generate_temporaries {schema : Schema} {definitions : List Definition} {program : Program}
    (h : generate schema definitions = .ok program) :
    List.Forall₂ (fun line r =>
        (∀ x ∈ r.temporaries, NamedFrom allHints 0 x) ∧ r.temporaries.Nodup ∧
        r.temporaries ⊆ targets line.blocks ∧
        targets line.blocks ⊆ r.temporaries ++ r.ownVariables ∧
        ((∀ x ∈ r.temporaries, x ∉ r.ownVariables) ↔
          ∀ name, (name, Storage.line.wireName) ∈ r.ownVariables →
            ∀ (k : Nat) hint, r.hints[k]? = some hint → name ≠ temporaryName hint k))
      program.lines (routines .empty definitions) := by
  rw [generate] at h
  split at h
  case h_2 => cases h
  case h_1 s hrun =>
    cases h
    obtain ⟨lines, hlines, hall⟩ := run_lines hrun
    rw [hlines]
    refine hall.imp fun line r hline => ?_
    obtain ⟨next, hw⟩ := writes_genFunction hline
    have hsub : r.hints ⊆ allHints := by
      intro hint hm
      obtain ⟨stmt, -, hm⟩ := List.mem_flatMap.mp hm
      exact stmtHints_subset stmt hm
    refine ⟨fun x hx => namedFrom_of_mem_temporaries hsub hx, nodup_temporaries hsub 0, hw.all,
      hw.within, ?_⟩
    constructor
    · rintro hfresh name hown k hint hk rfl
      exact hfresh _ (mem_temporaries.mpr ⟨hint, k, Nat.zero_le k, hk, rfl⟩) hown
    · intro hnames x hx hown
      obtain ⟨hint, k, -, hk, rfl⟩ := mem_temporaries.mp hx
      exact hnames _ hown k hint hk rfl

/-- The function `main(n)` with the body `var y = (n + n) + n`. -/
theorem generate_temporaries_sum :
    let n : Expr := .variable default "n"
    let body : List Stmt := [.var ⟨.var, "y", .num,
      some (.binary default .add default (.binary default .add default n n) n), default⟩]
    let definitions : List Definition :=
      [.func ⟨"main", [⟨"n", .num, false, false, false, none⟩], some body, default⟩]
    ∃ program line r, generate leastSchema definitions = .ok program ∧ program.lines = [line] ∧
      routines .empty definitions = [r] ∧ r.temporaries = [temporary "__bin_l" 0] ∧
      temporary "__bin_l" 0 ∈ targets line.blocks ∧ ∀ x ∈ r.temporaries, x ∉ r.ownVariables := by
  intro n body definitions
  obtain ⟨program, line, hok, hline⟩ : ∃ program line,
      generate leastSchema definitions = .ok program ∧ program.lines = [line] := by
    exact ⟨_, _, rfl, rfl⟩
  have hall := generate_temporaries hok
  rw [hline] at hall
  obtain _ | ⟨⟨-, -, hwritten, -, hfresh⟩, _ | _⟩ := hall
  refine ⟨program, line, _, hok, hline, rfl, rfl, hwritten List.mem_cons_self, hfresh.mpr ?_⟩
  rintro name hown k hint hk rfl
  have hnamed : NamedFrom ["__bin_l"] 0 (temporary hint k) :=
    ⟨hint, List.mem_of_getElem? hk, k, Nat.zero_le k, rfl⟩
  have hx : temporary hint k ∈ ("n", "line") :: ("y", "line") ::
    List.replicate 3 ("n", "line") := hown
  simp only [List.mem_cons, List.mem_replicate] at hx
  rcases hx with hx | hx | ⟨-, hx⟩
  all_goals exact not_namedFrom (by decide) 0 (hx ▸ hnamed)

/-- In the body `var __bin_l0 = 5; var y = (1 + 2) + __bin_l0` the variable and the temporary of
the first summand are the same, so that the sum is taken twice. -/
theorem generate_temporary_clash :
    let number (k : Nat) : Binary64 := .ofPattern false k
    let sum : Expr := .binary default .add default (.number default (number 1))
      (.number default (number 2))
    let body : List Stmt :=
      [.var ⟨.var, "__bin_l0", .num, some (.number default (number 5)), default⟩,
        .var ⟨.var, "y", .num,
          some (.binary default .add default sum (.variable default "__bin_l0")), default⟩]
    let definitions : List Definition := [.func ⟨"main", [], some body, default⟩]
    ∃ program line r, generate leastSchema definitions = .ok program ∧ program.lines = [line] ∧
      routines .empty definitions = [r] ∧ temporary "__bin_l" 0 ∈ r.temporaries ∧
      temporary "__bin_l" 0 ∈ r.ownVariables ∧
      exec symbolic line.blocks .initial ("y", "line") =
        .binary .add (.binary .add (.number (number 1)) (.number (number 2)))
          (.binary .add (.number (number 1)) (.number (number 2))) := by
  intro number sum body definitions
  refine ⟨_, _, _, rfl, rfl, rfl, ?_, ?_, ?_⟩
  · exact List.mem_cons_self
  · exact List.mem_cons_self
  · with_unfolding_all rfl

end DiamondScript.Machine
