import DiamondScript.Proofs.Freshness
import DiamondScript.Proofs.Lookup
import DiamondScript.Proofs.WellFormed

namespace DiamondScript

structure Frame.EntryFree (f : Frame) : Prop where
  bindings : ∀ b ∈ f.bindings.map Prod.snd, b.type.entryFree
  signatures : ∀ g ∈ f.signatures.map Prod.snd, ∀ p ∈ g.params, p.type.entryFree

namespace Scope

def EntryFree (s : Scope) : Prop := ∀ f ∈ s.frames, f.EntryFree

variable {s : Scope}

theorem entryFree_empty : Scope.empty.EntryFree := by
  intro f hf
  rw [List.mem_singleton.mp hf]
  exact ⟨List.forall_mem_nil _, List.forall_mem_nil _⟩

theorem EntryFree.push (h : s.EntryFree) : s.push.EntryFree :=
  List.forall_mem_cons.mpr ⟨⟨List.forall_mem_nil _, List.forall_mem_nil _⟩, h⟩

theorem EntryFree.onTop (h : s.EntryFree) {f : Frame → Frame}
    (hf : ∀ top : Frame, top.EntryFree → (f top).EntryFree) : (s.onTop f).EntryFree := by
  obtain ⟨top, rest, hframes, htop⟩ := s.frames_onTop f
  rw [EntryFree, hframes] at h
  rw [EntryFree, htop]
  obtain ⟨hfirst, hrest⟩ := List.forall_mem_cons.mp h
  exact List.forall_mem_cons.mpr ⟨hf top hfirst, hrest⟩

theorem EntryFree.define (h : s.EntryFree) (name : String) {type : ValueType}
    (htype : type.entryFree) (storage : Storage) : (s.define name type storage).EntryFree := by
  refine h.onTop fun top htop => ⟨fun b hb => ?_, htop.signatures⟩
  rcases Table.mem_insert hb with rfl | hb
  · exact htype
  · exact htop.bindings b hb

theorem EntryFree.defineFunction (h : s.EntryFree) {signature : Signature}
    (hparams : ∀ p ∈ signature.params, p.type.entryFree) :
    (s.defineFunction signature).EntryFree := by
  refine h.onTop fun top htop => ⟨htop.bindings, fun g hg => ?_⟩
  rcases Table.mem_insert hg with rfl | hg
  · exact hparams
  · exact htop.signatures g hg

end Scope

namespace Codegen

open Machine

def paramScopes : Scope → List Param → List Scope
  | scope, [] => [scope]
  | scope, p :: rest =>
    scope :: match p.type.base.parameterCode with
      | none => []
      | some _ => paramScopes (scope.define p.name (innerType p) .line) rest

/-- The names in force one after the other in a body, up to a statement that fails. A variable
is known before its initial value is there. -/
def bodyScopes (schema : Schema) : Scope → Nat → List Stmt → List Scope
  | scope, _, [] => [scope]
  | scope, n, stmt :: rest =>
    scope :: stmtScope scope stmt :: match genStmt ⟨schema, scope⟩ n stmt with
      | .ok e => bodyScopes schema e.result e.next rest
      | .error _ => []

def definitionScopes (schema : Schema) (scope : Scope) : Definition → List Scope
  | .var _ => []
  | .func func =>
    let around := scope.defineFunction ⟨func.name, func.params⟩
    around :: match func.body with
      | none => []
      | some body =>
        paramScopes around.push func.params ++
          match genParams func around.push 0 func.params with
          | .error _ => []
          | .ok (items, inner) =>
            match newBlock schema "func" none items func.span with
            | .error _ => []
            | .ok _ => bodyScopes schema inner 0 body

/-- The names in force one after the other in a run, up to a definition that fails. -/
def scopes (schema : Schema) : State → List Definition → List Scope
  | s, [] => [s.scope]
  | s, d :: rest =>
    s.scope :: (definitionScopes schema s.scope d ++ match genDefinition schema s d with
      | .ok s => scopes schema s rest
      | .error _ => [])

variable {schema : Schema} {scope : Scope}

theorem run_scope_mem (s : State) (definitions : List Definition) :
    (run schema s definitions).1.scope ∈ scopes schema s definitions := by
  induction definitions generalizing s with
  | nil => exact List.mem_cons_self
  | cons d rest ih =>
      rw [run, scopes]
      cases genDefinition schema s d with
      | ok next => exact List.mem_cons_of_mem _ (List.mem_append_right _ (ih next))
      | error e => exact List.mem_cons_self

theorem entryFree_innerType {p : Param} (h : p.type.entryFree) : (innerType p).entryFree := by
  rw [innerType]
  split
  · simp [ValueType.listOf, ValueType.entryFree, ValueType.entryFreeAll, h]
  · exact h

theorem paramScopes_entryFree {params : List Param} (h : scope.EntryFree)
    (hparams : ∀ p ∈ params, p.type.entryFree) :
    ∀ inner ∈ paramScopes scope params, inner.EntryFree := by
  induction params generalizing scope with
  | nil => exact List.forall_mem_singleton.mpr h
  | cons p rest ih =>
      obtain ⟨hp, hrest⟩ := List.forall_mem_cons.mp hparams
      rw [paramScopes]
      refine List.forall_mem_cons.mpr ⟨h, ?_⟩
      split
      · exact List.forall_mem_nil _
      · exact ih (h.define p.name (entryFree_innerType hp) .line) hrest

theorem mem_paramScopes {func : FuncDef} {params : List Param} {inner : Scope} {i : Nat}
    {items : List Item} (h : genParams func scope i params = .ok (items, inner)) :
    inner ∈ paramScopes scope params := by
  induction params generalizing scope i items with
  | nil =>
      cases h
      exact List.mem_cons_self
  | cons p rest ih =>
      rw [genParams] at h
      rw [paramScopes]
      cases hcode : p.type.base.parameterCode with
      | none =>
          rw [hcode] at h
          cases h
      | some code =>
          rw [hcode] at h
          obtain ⟨⟨items', inner'⟩, hrest, h⟩ := bind_eq_ok.mp h
          cases h
          exact List.mem_cons_of_mem _ (ih hrest)

theorem stmtScope_entryFree {stmt : Stmt} (h : scope.EntryFree) (hstmt : stmt.WellFormed) :
    (stmtScope scope stmt).EntryFree := by
  cases stmt with
  | var d => exact h.define d.name hstmt.2.1 d.storage
  | expr e => exact h

theorem bodyScopes_entryFree {body : List Stmt} (h : scope.EntryFree)
    (hbody : ∀ stmt ∈ body, stmt.WellFormed) (n : Nat) :
    ∀ inner ∈ bodyScopes schema scope n body, inner.EntryFree := by
  induction body generalizing scope n with
  | nil => exact List.forall_mem_singleton.mpr h
  | cons stmt rest ih =>
      obtain ⟨hstmt, hrest⟩ := List.forall_mem_cons.mp hbody
      have hnext := stmtScope_entryFree h hstmt
      rw [bodyScopes]
      refine List.forall_mem_cons.mpr ⟨h, List.forall_mem_cons.mpr ⟨hnext, ?_⟩⟩
      split
      case h_1 em hem =>
        rw [(writes_genStmt hem).1]
        exact ih hnext hrest em.next
      case h_2 => exact List.forall_mem_nil _

theorem definitionScopes_entryFree {d : Definition} (h : scope.EntryFree) (hd : d.WellFormed) :
    ∀ inner ∈ definitionScopes schema scope d, inner.EntryFree := by
  cases d with
  | var d => exact List.forall_mem_nil _
  | func func =>
      obtain ⟨hparams, hbody⟩ := hd
      have haround : (scope.defineFunction ⟨func.name, func.params⟩).EntryFree :=
        h.defineFunction hparams
      rw [definitionScopes]
      refine List.forall_mem_cons.mpr ⟨haround, ?_⟩
      cases hd : func.body with
      | none => exact List.forall_mem_nil _
      | some body =>
          have hinner := paramScopes_entryFree haround.push hparams
          refine List.forall_mem_append.mpr ⟨hinner, ?_⟩
          split
          case h_1 => exact List.forall_mem_nil _
          case h_2 hgen =>
            split
            case h_1 => exact List.forall_mem_nil _
            case h_2 =>
              exact bodyScopes_entryFree (hinner _ (mem_paramScopes hgen)) (hbody body hd) 0

theorem genDefinition_entryFree {s s' : State} {d : Definition} (h : s.scope.EntryFree)
    (hd : d.WellFormed) (hgen : genDefinition schema s d = .ok s') : s'.scope.EntryFree := by
  cases d with
  | var d =>
      rw [genDefinition, hd.2.1] at hgen
      cases hgen
      exact h.define d.name hd.2.2 d.storage
  | func d =>
      have haround : (s.scope.defineFunction ⟨d.name, d.params⟩).EntryFree := h.defineFunction hd.1
      rw [genDefinition] at hgen
      cases hbody : d.body with
      | none =>
          rw [hbody] at hgen
          cases hgen
          exact haround
      | some body =>
          rw [hbody] at hgen
          obtain ⟨line, -, hdone⟩ := bind_eq_ok.mp hgen
          cases hdone
          exact haround

theorem scopes_entryFree {definitions : List Definition} {s : State} (h : s.scope.EntryFree)
    (hdefinitions : ∀ d ∈ definitions, d.WellFormed) :
    ∀ inner ∈ scopes schema s definitions, inner.EntryFree := by
  induction definitions generalizing s with
  | nil => exact List.forall_mem_singleton.mpr h
  | cons d rest ih =>
      obtain ⟨hd, hrest⟩ := List.forall_mem_cons.mp hdefinitions
      rw [scopes]
      refine List.forall_mem_cons.mpr ⟨h, List.forall_mem_append.mpr
        ⟨definitionScopes_entryFree h hd, ?_⟩⟩
      split
      case h_1 hgen => exact ih (genDefinition_entryFree h hd hgen) hrest
      case h_2 => exact List.forall_mem_nil _

end Codegen

theorem SemanticFault.ne_of_illFormed {fault : SemanticFault} (h : fault.illFormed = false) :
    (∀ name, fault ≠ .globalInitializer name) ∧ fault ≠ .statementExpected := by
  constructor
  · rintro name rfl
    cases h
  · rintro rfl
    cases h

theorem Definition.WellFormed.excused {P : SemanticError → Prop} {d : Definition}
    (h : d.WellFormed) : d.Excused P := by
  cases d with
  | var d => exact .inl h.2.1
  | func d =>
      intro body hbody stmt hmem
      have hstmt := h.2 body hbody stmt hmem
      cases stmt with
      | var d => trivial
      | expr e => exact .inl hstmt.1

theorem generate_illFormed {schema : Schema} {definitions : List Definition}
    (h : ∀ d ∈ definitions, d.WellFormed) {e : SemanticError}
    (he : generate schema definitions = .error e) : e.fault.illFormed = false :=
  generate_fault (P := fun e => e.fault.illFormed = false)
    (fun d _ => d.placed_of_forall fun _ _ hfault => hfault) (fun d hd => (h d hd).excused) he

/-- What a source is read as is well formed, so that the generator never finds the faults of
ill-formed definitions and never has a type with recorded entries in force. -/
theorem compile_wellFormed (source : String) :
    (∀ definitions, parseSource source = .ok definitions → ∀ d ∈ definitions, d.WellFormed) ∧
    ∀ schema,
      (∀ e, compile schema source = .error (.semantic e) →
        (∀ name, e.fault ≠ .globalInitializer name) ∧ e.fault ≠ .statementExpected) ∧
      ∀ definitions, parseSource source = .ok definitions →
        (Codegen.run schema .start definitions).1.scope ∈
          Codegen.scopes schema .start definitions ∧
        ∀ scope ∈ Codegen.scopes schema .start definitions, scope.EntryFree := by
  refine ⟨fun definitions h => parseSource_wellFormed h, fun schema => ⟨fun e h => ?_, ?_⟩⟩
  · rcases bind_eq_error.mp h with hsource | ⟨definitions, hsource, hgenerate⟩
    · rcases bind_eq_error.mp hsource with hlex | ⟨lexemes, -, hparse⟩
      · obtain ⟨_, -, hwrong⟩ := mapError_eq_error.mp hlex
        cases hwrong
      · obtain ⟨_, -, hwrong⟩ := mapError_eq_error.mp hparse
        cases hwrong
    · obtain ⟨e', he', heq⟩ := mapError_eq_error.mp hgenerate
      cases heq
      exact SemanticFault.ne_of_illFormed (generate_illFormed (parseSource_wellFormed hsource) he')
  · intro definitions h
    exact ⟨Codegen.run_scope_mem .start definitions,
      Codegen.scopes_entryFree Scope.entryFree_empty (parseSource_wellFormed h)⟩

/-- A run that fails at a cast, with a constant for an action as the statement behind it. -/
theorem compile_wellFormed_constant :
    let schema := Schema.ofCatalog ⟨[], [⟨"FUNCTION", "func"⟩]⟩
    let source := "const act = codeblock \"A\" <\"P\">;\n" ++
      "func f() \x7b local x: list<num> = (list<num>) y; act; \x7d"
    let inside := (Scope.empty.defineFunction ⟨"f", []⟩).push.define "x" (.listOf .num) .local
    ∃ definitions, parseSource source = .ok definitions ∧ (∀ d ∈ definitions, d.WellFormed) ∧
      compile schema source = .error (.semantic ⟨.undefinedVariable "y", ⟨77, 78⟩⟩) ∧
      (∀ name, SemanticFault.undefinedVariable "y" ≠ .globalInitializer name) ∧
      SemanticFault.undefinedVariable "y" ≠ .statementExpected ∧
      inside ∈ Codegen.scopes schema .start definitions ∧ inside.EntryFree := by
  intro schema source inside
  have hsource : source = "const act = codeblock \"A\" <\"P\">;\n" ++
      "func f() \x7b local x: list<num> = (list<num>) y; act; \x7d" := rfl
  have hlex : lex source = .ok [⟨.keyword .const, ⟨0, 5⟩⟩, ⟨.ident "act", ⟨6, 9⟩⟩,
      ⟨.mark .equals, ⟨10, 11⟩⟩, ⟨.keyword .codeblock, ⟨12, 21⟩⟩, ⟨.string "A", ⟨22, 25⟩⟩,
      ⟨.mark .less, ⟨26, 27⟩⟩, ⟨.string "P", ⟨27, 30⟩⟩, ⟨.mark .greater, ⟨30, 31⟩⟩,
      ⟨.mark .semicolon, ⟨31, 32⟩⟩, ⟨.keyword .func, ⟨33, 37⟩⟩, ⟨.ident "f", ⟨38, 39⟩⟩,
      ⟨.mark .leftParen, ⟨39, 40⟩⟩, ⟨.mark .rightParen, ⟨40, 41⟩⟩, ⟨.mark .leftBrace, ⟨42, 43⟩⟩,
      ⟨.keyword .local, ⟨44, 49⟩⟩, ⟨.ident "x", ⟨50, 51⟩⟩, ⟨.mark .colon, ⟨51, 52⟩⟩,
      ⟨.type .list, ⟨53, 57⟩⟩, ⟨.mark .less, ⟨57, 58⟩⟩, ⟨.type .num, ⟨58, 61⟩⟩,
      ⟨.mark .greater, ⟨61, 62⟩⟩, ⟨.mark .equals, ⟨63, 64⟩⟩, ⟨.mark .leftParen, ⟨65, 66⟩⟩,
      ⟨.type .list, ⟨66, 70⟩⟩, ⟨.mark .less, ⟨70, 71⟩⟩, ⟨.type .num, ⟨71, 74⟩⟩,
      ⟨.mark .greater, ⟨74, 75⟩⟩, ⟨.mark .rightParen, ⟨75, 76⟩⟩, ⟨.ident "y", ⟨77, 78⟩⟩,
      ⟨.mark .semicolon, ⟨78, 79⟩⟩, ⟨.ident "act", ⟨80, 83⟩⟩, ⟨.mark .semicolon, ⟨83, 84⟩⟩,
      ⟨.mark .rightBrace, ⟨85, 86⟩⟩, ⟨.eof, ⟨86, 86⟩⟩] := by
    rw [hsource]
    rfl
  have hparse : parseSource source = .ok [.func ⟨"f", [], some [
      .var ⟨.local, "x", .listOf .num,
        some (.cast ⟨65, 78⟩ (.listOf .num) (.variable ⟨77, 78⟩ "y")), ⟨44, 79⟩⟩,
      .expr (.action ⟨80, 83⟩ ⟨"A", "P", none⟩ [])], ⟨38, 39⟩⟩] := by
    rw [parseSource, hlex]
    rfl
  have hcompile : compile schema source =
      .error (.semantic ⟨.undefinedVariable "y", ⟨77, 78⟩⟩) := by
    rw [compile, hparse]
    rfl
  obtain ⟨hdefinitions, hrun⟩ := compile_wellFormed source
  obtain ⟨hfault, hscopes⟩ := hrun schema
  obtain ⟨hglobal, hstatement⟩ := hfault _ hcompile
  refine ⟨_, hparse, hdefinitions _ hparse, hcompile, hglobal, hstatement, ?_⟩
  refine (and_iff_left_of_imp ((hscopes _ hparse).2 inside)).mpr ?_
  exact List.mem_of_getElem? (i := 4) rfl

end DiamondScript
