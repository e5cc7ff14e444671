import DiamondScript.Proofs.Items
import DiamondScript.Proofs.Lookup

namespace DiamondScript

abbrev Declaration := String × Storage

def Definition.declares? : Definition → Option Declaration
  | .var d => some (d.name, d.storage)
  | .func _ => none

def Stmt.declares? : Stmt → Option Declaration
  | .var d => some (d.name, d.storage)
  | .expr _ => none

def FuncDef.declarations (f : FuncDef) (body : List Stmt) : List Declaration :=
  f.params.map (fun p => (p.name, .line)) ++ body.filterMap Stmt.declares?

def latest? (name : String) (declared : List Declaration) : Option Storage :=
  Table.find? declared.reverse name

/-- Where the variable that a name stands for is kept: inside a function, behind the definitions
before it and the first statements of its body. -/
def inForce? (before : List Definition) (f : FuncDef) (body : List Stmt) (name : String) :
    Option Storage :=
  (latest? name (f.declarations body)).or (latest? name (before.filterMap Definition.declares?))

theorem latest?_append (name : String) (earlier later : List Declaration) :
    latest? name (earlier ++ later) = (latest? name later).or (latest? name earlier) := by
  rw [latest?, List.reverse_append, Table.find?_append]
  rfl

theorem latest?_singleton (name : String) (d : Declaration) :
    latest? name [d] = if name = d.1 then some d.2 else none :=
  Table.find?_cons d.1 d.2 [] name

def Scope.Knows (scope : Scope) (declared : List Declaration) : Prop :=
  ∀ name, (scope.binding? name).map Binding.storage = latest? name declared

namespace Scope.Knows

variable {scope : Scope} {declared : List Declaration}

theorem define (h : scope.Knows declared) (name : String) (type : ValueType) (storage : Storage) :
    (scope.define name type storage).Knows (declared ++ [(name, storage)]) := by
  intro query
  rw [binding?_define_apply, latest?_append, latest?_singleton, ← h query]
  by_cases hq : query = name
  · rw [if_pos hq, if_pos hq]
    rfl
  · rw [if_neg hq, if_neg hq]
    rfl

theorem defineFunction (h : scope.Knows declared) (signature : Signature) :
    (scope.defineFunction signature).Knows declared := by
  intro query
  rw [binding?_defineFunction, h query]

theorem push (h : scope.Knows declared) : scope.push.Knows declared := h

theorem params (h : scope.Knows declared) (params : List Param) :
    (params.foldl (fun s p => s.define p.name (Codegen.innerType p) .line) scope).Knows
      (declared ++ params.map fun p => (p.name, .line)) := by
  induction params generalizing scope declared with
  | nil =>
      rw [List.map_nil, List.append_nil]
      exact h
  | cons p rest ih =>
      rw [List.map_cons, List.append_cons]
      exact ih (h.define p.name (Codegen.innerType p) .line)

end Scope.Knows

namespace Machine

open Codegen

theorem knows_body {scope : Scope} {declared : List Declaration} (h : scope.Knows declared)
    (body : List Stmt) :
    (body.foldl stmtScope scope).Knows (declared ++ body.filterMap Stmt.declares?) := by
  induction body generalizing scope declared with
  | nil =>
      rw [List.filterMap_nil, List.append_nil]
      exact h
  | cons stmt rest ih =>
      cases stmt with
      | var d =>
          have hrest := ih (h.define d.name d.type d.storage)
          rw [List.append_assoc] at hrest
          exact hrest
      | expr e => exact ih h

def definitionScope (scope : Scope) : Definition → Scope
  | .var d => scope.define d.name d.type d.storage
  | .func d => scope.defineFunction ⟨d.name, d.params⟩

theorem knows_definitions {scope : Scope} {declared : List Declaration}
    (h : scope.Knows declared) (definitions : List Definition) :
    (definitions.foldl definitionScope scope).Knows
      (declared ++ definitions.filterMap Definition.declares?) := by
  induction definitions generalizing scope declared with
  | nil =>
      rw [List.filterMap_nil, List.append_nil]
      exact h
  | cons d rest ih =>
      cases d with
      | var d =>
          have hrest := ih (h.define d.name d.type d.storage)
          rw [List.append_assoc] at hrest
          exact hrest
      | func d => exact ih (h.defineFunction ⟨d.name, d.params⟩)

theorem routines_append (scope : Scope) (before after : List Definition) :
    routines scope (before ++ after) =
      routines scope before ++ routines (before.foldl definitionScope scope) after := by
  induction before generalizing scope with
  | nil => rfl
  | cons d rest ih =>
      cases d with
      | var d => exact ih _
      | func d =>
          rw [List.cons_append, routines, routines]
          cases d.body with
          | none => exact ih _
          | some body => exact congrArg _ (ih _)

/-- The names in force around a function, which knows itself. -/
def scopeAround (before : List Definition) (f : FuncDef) : Scope :=
  (before.foldl definitionScope .empty).defineFunction ⟨f.name, f.params⟩

def scopeInside (before : List Definition) (f : FuncDef) (body : List Stmt) : Scope :=
  body.foldl stmtScope (f.params.foldl (fun s p => s.define p.name (innerType p) .line)
    (scopeAround before f).push)

theorem generate_line {schema : Schema} {before after : List Definition} {f : FuncDef}
    {program : Program} {body : List Stmt}
    (h : generate schema (before ++ .func f :: after) = .ok program) (hbody : f.body = some body) :
    ∃ line, program.lines[(before.filterMap Definition.coded?).length]? = some line ∧
      genFunction schema (scopeAround before f) f body = .ok line := by
  have hroutines : routines .empty (before ++ .func f :: after) = routines .empty before ++
      ⟨scopeAround before f, f, body⟩ :: routines (scopeAround before f) after := by
    rw [routines_append, routines, hbody]
    rfl
  have hget : (routines .empty (before ++ .func f :: after))[(before.filterMap
      Definition.coded?).length]? = some ⟨scopeAround before f, f, body⟩ := by
    rw [hroutines, ← length_routines .empty, List.getElem?_append_right (Nat.le_refl _),
      Nat.sub_self]
    rfl
  exact forall₂_getElem? (generate_lines h) hget

theorem knows_scopeInside (before : List Definition) (f : FuncDef) (body : List Stmt) :
    (scopeInside before f body).Knows
      (before.filterMap Definition.declares? ++ f.declarations body) := by
  have hempty : Scope.empty.Knows [] := fun _ => rfl
  have hbefore := knows_definitions hempty before
  have hparams := (hbefore.defineFunction ⟨f.name, f.params⟩).push.params f.params
  have hbody := knows_body hparams body
  rw [List.nil_append, List.append_assoc] at hbody
  exact hbody

theorem known_of_resolve? {scope : Scope} {names : List String} {x : Var}
    (h : x ∈ names.filterMap (resolve? scope)) :
    ∃ b, scope.binding? x.1 = some b ∧ x.2 = b.storage.wireName := by
  obtain ⟨name, -, hname⟩ := List.mem_filterMap.mp h
  obtain ⟨b, hb, rfl⟩ := Option.map_eq_some_iff.mp hname
  exact ⟨b, hb, rfl⟩

theorem known_of_mem_stmtVariables {scope : Scope} {stmt : Stmt} {x : Var}
    (h : x ∈ stmtVariables scope stmt) :
    ∃ b, (stmtScope scope stmt).binding? x.1 = some b ∧ x.2 = b.storage.wireName := by
  cases stmt with
  | var d =>
      rcases List.mem_cons.mp h with rfl | h
      · exact ⟨_, Scope.binding?_define .., rfl⟩
      · obtain ⟨e, -, hx⟩ := List.mem_flatMap.mp h
        exact known_of_resolve? hx
  | expr e => exact known_of_resolve? h

/-- A line comes statement by statement, and every variable in the blocks of a statement is one of
its temporaries or kept where the declaration in force says. -/
def Resolves (schema : Schema) (before : List Definition) (f : FuncDef) (body : List Stmt)
    (line : Codeline) : Prop :=
  ∃ (head : Codeblock) (parts : List (List Codeblock)),
    line.blocks = head :: parts.flatten ∧ head.variables = [] ∧ parts.length = body.length ∧
    ∀ i stmt part, body[i]? = some stmt → parts[i]? = some part →
      (∃ em, genStmt ⟨schema, scopeInside before f (body.take i)⟩
        (bodyHints (body.take i)).length stmt = .ok em ∧ em.blocks = part) ∧
      ∀ b ∈ part, ∀ x ∈ b.variables,
        x ∈ temporaries (bodyHints (body.take i)).length (stmtHints stmt) ∨
        ∃ storage, inForce? before f (body.take (i + 1)) x.1 = some storage ∧
          x.2 = storage.wireName

theorem resolves_genFunction {schema : Schema} {before : List Definition} {f : FuncDef}
    {body : List Stmt} {line : Codeline}
    (h : genFunction schema (scopeAround before f) f body = .ok line) :
    Resolves schema before f body line := by
  obtain ⟨head, parts, rfl, hhead, hlength, hparts⟩ :=
    @genFunction_parts schema ⟨scopeAround before f, f, body⟩ line h
  refine ⟨head, parts, rfl, List.subset_nil.mp hhead.variables_subset, hlength, ?_⟩
  intro i stmt part hi hpart
  obtain ⟨em, hem, rfl⟩ := hparts i stmt part hi hpart
  refine ⟨⟨em, hem, rfl⟩, fun b hb x hx => ?_⟩
  rcases List.mem_append.mp ((uses_genStmt hem b hb).variables_subset hx) with hx | hx
  · exact .inl hx
  · right
    obtain ⟨binding, hbinding, hscope⟩ := known_of_mem_stmtVariables hx
    have hnext : scopeInside before f (body.take (i + 1)) =
        stmtScope (scopeInside before f (body.take i)) stmt := by
      rw [scopeInside, List.take_add_one, hi, List.foldl_append]
      rfl
    have hknows := knows_scopeInside before f (body.take (i + 1)) x.1
    rw [hnext, latest?_append] at hknows
    refine ⟨binding.storage, ?_, hscope⟩
    rw [inForce?, ← hknows]
    exact congrArg _ hbinding

/-- Each function with a body has its line, and all variables in it that are no temporaries stand
for the nearest declaration. -/
theorem generate_variables {schema : Schema} {definitions : List Definition} {program : Program}
    (h : generate schema definitions = .ok program) :
    program.lines.length = (definitions.filterMap Definition.coded?).length ∧
    ∀ before f body after, definitions = before ++ .func f :: after → f.body = some body →
      ∃ line, program.lines[(before.filterMap Definition.coded?).length]? = some line ∧
        Resolves schema before f body line := by
  constructor
  · rw [← length_routines .empty]
    exact (generate_lines h).length_eq
  · rintro before f body after rfl hbody
    obtain ⟨line, hline, hf⟩ := generate_line h hbody
    exact ⟨line, hline, resolves_genFunction hf⟩

/-- The global `x` is shadowed by a saved one from the second statement on. -/
theorem generate_variables_shadowed :
    let number (name : String) (storage : Storage) (value : Option Expr) : VarDef :=
      ⟨storage, name, .num, value, default⟩
    let before : List Definition := [.var (number "x" .game none),
      .func ⟨"g", [], some [.var (number "x" .local none)], default⟩]
    let body : List Stmt := [.expr (.assign default "x" (.variable default "n")),
      .var (number "x" .save (some (.variable default "n"))),
      .expr (.assign default "n" (.variable default "x"))]
    let f : FuncDef := ⟨"f", [⟨"n", .num, false, false, false, none⟩], some body, default⟩
    let after : List Definition := [.var (number "n" .local none)]
    ∃ program line, generate leastSchema (before ++ .func f :: after) = .ok program ∧
      program.lines[1]? = some line ∧ Resolves leastSchema before f body line ∧
      line.blocks.map Codeblock.variables = [[], [("x", "unsaved"), ("n", "line")],
        [("x", "saved"), ("n", "line")], [("n", "line"), ("x", "saved")]] ∧
      inForce? before f (body.take 1) "x" = some .game ∧
      inForce? before f (body.take 2) "x" = some .save := by
  intro number before body f after
  obtain ⟨program, hok⟩ : ∃ program,
      generate leastSchema (before ++ .func f :: after) = .ok program := ⟨_, rfl⟩
  obtain ⟨line, hline, hresolves⟩ := (generate_variables hok).2 before f body after rfl rfl
  refine ⟨program, line, hok, hline, hresolves, ?_, rfl, rfl⟩
  cases hok
  cases hline
  rfl

end Machine
end DiamondScript
