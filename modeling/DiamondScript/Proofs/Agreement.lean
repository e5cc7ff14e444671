import DiamondScript.Codegen.Definition
import DiamondScript.Proofs.Bare
import DiamondScript.Proofs.Lookup

namespace DiamondScript

/-- Two scopes mean the same by every variable, and by every function that is asked for. -/
structure Scope.Agree (asked : String → Prop) (s t : Scope) : Prop where
  bindings : ∀ name, s.binding? name = t.binding? name
  signatures : ∀ name, asked name → s.signature? name = t.signature? name

namespace Scope.Agree

variable {asked : String → Prop} {s t : Scope}

theorem refl (asked : String → Prop) (s : Scope) : Agree asked s s :=
  ⟨fun _ => rfl, fun _ _ => rfl⟩

theorem define (h : Agree asked s t) (name : String) (type : ValueType) (storage : Storage) :
    Agree asked (s.define name type storage) (t.define name type storage) := by
  constructor
  · intro query
    rw [binding?_define_apply, binding?_define_apply, h.bindings]
  · intro query hquery
    rw [signature?_define, signature?_define, h.signatures query hquery]

theorem defineFunction (h : Agree asked s t) (signature : Signature) :
    Agree asked (s.defineFunction signature) (t.defineFunction signature) := by
  constructor
  · intro query
    rw [binding?_defineFunction, binding?_defineFunction, h.bindings]
  · intro query hquery
    rw [signature?_defineFunction, signature?_defineFunction, h.signatures query hquery]

theorem push (h : Agree asked s t) : Agree asked s.push t.push :=
  ⟨h.bindings, h.signatures⟩

end Scope.Agree

/-- The function that a statement calls. Calls deeper inside an expression have no value and are
never accepted. -/
def Stmt.callee? : Stmt → Option String
  | .expr (.call _ name _) => some name
  | _ => none

def Definition.callees : Definition → List String
  | .var _ => []
  | .func d => d.body.toList.flatMap (List.filterMap Stmt.callee?)

namespace Codegen

/-- The same result, or the same fault at any place. -/
abbrev Same {α : Type} : Result α → Result α → Prop :=
  Alike (fun e e' => e.fault = e'.fault) Eq

theorem Same.bind {α β : Type} {x y : Result α} (h : Same x y) {f g : α → Result β}
    (hfg : ∀ a, Same (f a) (g a)) : Same (x >>= f) (y >>= g) := by
  refine Alike.bind h ?_
  rintro a _ rfl
  exact hfg a

theorem same_fail {α : Type} (fault : SemanticFault) (span span' : Span) :
    Same (fail fault span : Result α) (fail fault span') :=
  .error rfl

theorem same_liftSchema {α : Type} (x : Except SchemaError α) (span span' : Span) :
    Same (liftSchema span x) (liftSchema span' x) := by
  cases x with
  | ok a => exact .ok rfl
  | error e => exact same_fail _ _ _

theorem same_newBlock (schema : Schema) (kind : String) (action : Option String)
    (args : List Item) (span span' : Span) :
    Same (newBlock schema kind action args span) (newBlock schema kind action args span') :=
  same_liftSchema _ _ _

theorem same_setVar (schema : Schema) (action : String) (args : List Item) (span span' : Span) :
    Same (setVar schema action args span) (setVar schema action args span') :=
  same_newBlock _ _ _ _ _ _

theorem same_checkKey (container : Container) (key : ValueType) (span span' : Span) :
    Same (checkKey container key span) (checkKey container key span') := by
  rw [checkKey, checkKey]
  split
  · exact .ok rfl
  · exact same_fail _ _ _

theorem same_fillDict (schema : Schema) (target : Item) (span span' : Span)
    (entries : List (String × Item)) :
    Same (fillDict schema target span entries) (fillDict schema target span' entries) := by
  induction entries with
  | nil => exact .ok rfl
  | cons entry rest ih =>
      rw [fillDict, fillDict]
      exact (same_setVar _ _ _ _ _).bind fun block => ih.bind fun blocks => .ok rfl

variable {asked : String → Prop} {s t : Scope}

mutual

/-- Code for a value depends neither on places nor on more of the scope than its variables. -/
theorem same_genValue (schema : Schema) (hst : s.Agree asked t) :
    ∀ (e : Expr) (dest : Dest) (n : Nat),
      Same (genValue ⟨schema, s⟩ dest n e) (genValue ⟨schema, t⟩ dest n e.bare)
  | .number .., _, _ | .str .., _, _ | .styledText .., _, _ | .vector .., _, _ => .ok rfl
  | .variable _ name, _, _ => by
      rw [Expr.bare, genValue, genValue, hst.bindings]
      cases t.binding? name with
      | none => exact same_fail _ _ _
      | some b => exact .ok rfl
  | .dict _ entries, dest, n => by
      rw [Expr.bare, genValue, genValue]
      refine (same_genEntries schema hst entries n).bind fun values => ?_
      refine (same_setVar _ _ _ _ _).bind fun create => ?_
      exact (same_fillDict _ _ _ _ _).bind fun fill => .ok rfl
  | .list _ items, dest, n => by
      rw [Expr.bare, genValue, genValue]
      refine (same_genItems schema hst items n).bind fun values => ?_
      exact (same_setVar _ _ _ _ _).bind fun create => .ok rfl
  | .binary _ op _ left right, dest, n => by
      rw [Expr.bare, genValue, genValue]
      refine (same_genValue schema hst left _ n).bind fun l => ?_
      refine (same_genValue schema hst right _ l.next).bind fun r => ?_
      split
      · exact (same_setVar _ _ _ _ _).bind fun block => .ok rfl
      · exact same_fail _ _ _
  | .index _ object key, dest, n => by
      rw [Expr.bare, genValue, genValue]
      refine (same_genValue schema hst object _ n).bind fun o => ?_
      cases containerOf? o.result.type with
      | none =>
          dsimp only
          split
          · exact (same_genValue schema hst key _ o.next).bind fun _ => same_fail _ _ _
          · exact same_fail _ _ _
      | some container =>
          refine (same_genValue schema hst key _ o.next).bind fun i => ?_
          refine (same_checkKey _ _ _ _).bind fun _ => ?_
          exact (same_setVar _ _ _ _ _).bind fun block => .ok rfl
  | .cast _ type value, dest, n => by
      rw [Expr.bare, genValue, genValue]
      exact (same_genValue schema hst value dest n).bind fun v => .ok rfl
  | .assign .., _, _ | .setIndex .., _, _ | .call .., _, _ | .action .., _, _ => by
      rw [Expr.bare, genValue, genValue]
      exact same_fail _ _ _

theorem same_genItems (schema : Schema) (hst : s.Agree asked t) :
    ∀ (items : List Expr) (n : Nat),
      Same (genItems ⟨schema, s⟩ n items) (genItems ⟨schema, t⟩ n (Expr.bareItems items))
  | [], _ => .ok rfl
  | e :: rest, n => by
      rw [Expr.bareItems, genItems, genItems]
      refine (same_genValue schema hst e _ n).bind fun v => ?_
      exact (same_genItems schema hst rest v.next).bind fun vs => .ok rfl

theorem same_genEntries (schema : Schema) (hst : s.Agree asked t) :
    ∀ (entries : List (String × Expr)) (n : Nat),
      Same (genEntries ⟨schema, s⟩ n entries) (genEntries ⟨schema, t⟩ n (Expr.bareEntries entries))
  | [], _ => .ok rfl
  | (key, e) :: rest, n => by
      rw [Expr.bareEntries, genEntries, genEntries]
      refine (same_genValue schema hst e _ n).bind fun v => ?_
      exact (same_genEntries schema hst rest v.next).bind fun vs => .ok rfl

end

theorem accepts_bare (p : Expectation) (arg : Expr) (type : ValueType) :
    p.accepts arg.bare type = p.accepts arg type := by
  have hvariable : isVariable arg.bare = isVariable arg := by
    cases arg <;> rfl
  rw [Expectation.accepts, Expectation.accepts, hvariable]

theorem same_settle (callee : Callee) (span span' : Span) (params : List Expectation) (i pos : Nat)
    (arg : Expr) (type : ValueType) :
    Same (settle callee span params i pos arg type)
      (settle callee span' params i pos arg.bare type) := by
  unfold settle
  cases params[pos]? with
  | none => exact same_fail _ _ _
  | some p =>
      dsimp only
      rw [accepts_bare]
      split
      · exact .ok rfl
      · split
        · cases params[pos + 1]? with
          | none => exact same_fail _ _ _
          | some q =>
              dsimp only
              rw [accepts_bare]
              split
              · exact .ok rfl
              · exact same_fail _ _ _
        · exact same_fail _ _ _

theorem same_matchArgs (schema : Schema) (hst : s.Agree asked t) (callee : Callee)
    (span span' : Span) (params : List Expectation) (args : List Expr) (i : Nat)
    (cursor : Option Nat) (n : Nat) :
    Same (matchArgs ⟨schema, s⟩ callee span params i cursor n args)
      (matchArgs ⟨schema, t⟩ callee span' params i cursor n (Expr.bareItems args)) := by
  induction args generalizing i cursor n with
  | nil => exact .ok rfl
  | cons arg rest ih =>
      rw [Expr.bareItems, matchArgs, matchArgs]
      refine (same_genValue schema hst arg _ n).bind fun v => ?_
      refine (same_settle callee span span' params i _ arg v.result.type).bind fun pos => ?_
      exact (ih (i + 1) (some pos) v.next).bind fun vs => .ok rfl

theorem same_resolveArgs (schema : Schema) (hst : s.Agree asked t) (callee : Callee)
    (span span' : Span) (params : List Expectation) (args : List Expr) (n : Nat) :
    Same (resolveArgs ⟨schema, s⟩ callee span params n args)
      (resolveArgs ⟨schema, t⟩ callee span' params n (Expr.bareItems args)) := by
  rw [resolveArgs, resolveArgs]
  refine (same_matchArgs schema hst callee span span' params args 0 none n).bind fun matched => ?_
  obtain ⟨⟨items, cursor⟩, blocks, next⟩ := matched
  dsimp only
  split
  · exact same_fail _ _ _
  · exact .ok rfl

theorem same_checkAssignment (declared actual : ValueType) (span span' : Span) :
    Same (checkAssignment declared actual span) (checkAssignment declared actual span') := by
  rw [checkAssignment, checkAssignment]
  cases ValueType.compare declared actual with
  | yes => exact .ok rfl
  | no | entry => exact same_fail _ _ _

theorem same_assignInto (schema : Schema) (hst : s.Agree asked t) (name : String)
    (storage : Storage) (declared : ValueType) (n : Nat) (value : Expr) (span span' : Span) :
    Same (assignInto ⟨schema, s⟩ name storage declared n value span)
      (assignInto ⟨schema, t⟩ name storage declared n value.bare span') := by
  rw [assignInto, assignInto]
  refine (same_genValue schema hst value _ n).bind fun v => ?_
  refine (same_checkAssignment _ _ _ _).bind fun _ => ?_
  dsimp only
  split
  · exact .ok rfl
  · exact (same_setVar _ _ _ _ _).bind fun copy => .ok rfl

theorem same_genSetIndex (schema : Schema) (hst : s.Agree asked t) (n : Nat)
    (object key value : Expr) (span span' : Span) :
    Same (genSetIndex ⟨schema, s⟩ n object key value span)
      (genSetIndex ⟨schema, t⟩ n object.bare key.bare value.bare span') := by
  rw [genSetIndex, genSetIndex]
  refine (same_genValue schema hst object _ n).bind fun o => ?_
  cases containerOf? o.result.type with
  | none => exact same_fail _ _ _
  | some container =>
      refine (same_genValue schema hst key _ o.next).bind fun i => ?_
      refine (same_genValue schema hst value _ i.next).bind fun v => ?_
      refine (same_checkKey _ _ _ _).bind fun _ => ?_
      dsimp only
      split
      · exact (same_setVar _ _ _ _ _).bind fun block => .ok rfl
      · exact same_fail _ _ _

theorem same_genCall (schema : Schema) (hst : s.Agree asked t) (n : Nat) {name : String}
    (hname : asked name) (args : List Expr) (span span' : Span) :
    Same (genCall ⟨schema, s⟩ n name args span)
      (genCall ⟨schema, t⟩ n name (Expr.bareItems args) span') := by
  have hempty : (Expr.bareItems args).isEmpty = args.isEmpty := by
    cases args <;> rfl
  unfold genCall
  dsimp only
  rw [hst.signatures name hname, hempty]
  cases t.signature? name with
  | none => exact same_fail _ _ _
  | some signature =>
      dsimp only
      split
      · exact same_fail _ _ _
      · refine (same_resolveArgs schema hst _ _ _ _ args n).bind fun items => ?_
        exact (same_newBlock _ _ _ _ _ _).bind fun block => .ok rfl

theorem same_genAction (schema : Schema) (hst : s.Agree asked t) (n : Nat) (ref : ActionRef)
    (args : List Expr) (span span' : Span) :
    Same (genAction ⟨schema, s⟩ n ref args span)
      (genAction ⟨schema, t⟩ n ref (Expr.bareItems args) span') := by
  have hempty : (Expr.bareItems args).isEmpty = args.isEmpty := by
    cases args <;> rfl
  unfold genAction
  rw [hempty]
  refine (same_liftSchema _ _ _).bind fun spec => (same_liftSchema _ _ _).bind fun identifier => ?_
  split
  · exact same_fail _ _ _
  · refine (same_resolveArgs schema hst _ _ _ _ args n).bind fun items => ?_
    exact (same_newBlock _ _ _ _ _ _).bind fun block => .ok rfl

structure Emitted.InStep (asked : String → Prop) (em em' : Emitted Scope) : Prop where
  scope : em.result.Agree asked em'.result
  blocks : em.blocks = em'.blocks
  next : em.next = em'.next

theorem inStep_genStmt (schema : Schema) (hst : s.Agree asked t) (n : Nat) (stmt : Stmt)
    (hcalls : ∀ name ∈ stmt.callee?, asked name) :
    Alike (fun e e' => e.fault = e'.fault) (Emitted.InStep asked)
      (genStmt ⟨schema, s⟩ n stmt) (genStmt ⟨schema, t⟩ n stmt.bare) := by
  cases stmt with
  | var d =>
      obtain ⟨storage, name, type, value, span⟩ := d
      have hdef := hst.define name type storage
      cases value with
      | none => exact .ok ⟨hdef, rfl, rfl⟩
      | some value =>
          refine Alike.bind (same_assignInto schema hdef name storage type n value span _) ?_
          rintro em _ rfl
          exact .ok ⟨hdef, rfl, rfl⟩
  | expr e =>
      have hemitted {x y : Result (Emitted Unit)} (h : Same x y) :
          Alike (fun e e' => e.fault = e'.fault) (Emitted.InStep asked)
            (do
              let emitted ← x
              .ok ⟨s, emitted.blocks, emitted.next⟩)
            (do
              let emitted ← y
              .ok ⟨t, emitted.blocks, emitted.next⟩) := by
        refine Alike.bind h ?_
        rintro em _ rfl
        exact .ok ⟨hst, rfl, rfl⟩
      cases e with
      | assign span name value =>
          dsimp only [Stmt.bare, Expr.bare, genStmt]
          rw [hst.bindings]
          cases t.binding? name with
          | none => exact hemitted (same_fail _ _ _)
          | some b => exact hemitted (same_assignInto schema hst _ _ _ _ _ _ _)
      | setIndex span object key value =>
          exact hemitted (same_genSetIndex schema hst _ _ _ _ _ _)
      | call span name args =>
          exact hemitted (same_genCall schema hst _ (hcalls name rfl) _ _ _)
      | action span ref args => exact hemitted (same_genAction schema hst _ _ _ _ _)
      | _ => exact hemitted (same_fail _ _ _)

theorem same_genBody (schema : Schema) (hst : s.Agree asked t) (n : Nat) (body : List Stmt)
    (hcalls : ∀ name ∈ body.filterMap Stmt.callee?, asked name) :
    Same (genBody schema s n body) (genBody schema t n (body.map Stmt.bare)) := by
  induction body generalizing s t n with
  | nil => exact .ok rfl
  | cons stmt rest ih =>
      have hstmt : ∀ name ∈ stmt.callee?, asked name := fun name hname =>
        hcalls name (List.mem_filterMap.mpr ⟨stmt, List.mem_cons_self, hname⟩)
      have hrest : ∀ name ∈ rest.filterMap Stmt.callee?, asked name := fun name hname => by
        obtain ⟨stmt', hm, hname⟩ := List.mem_filterMap.mp hname
        exact hcalls name (List.mem_filterMap.mpr ⟨stmt', List.mem_cons_of_mem _ hm, hname⟩)
      rw [List.map_cons, genBody, genBody]
      refine Alike.bind (inStep_genStmt schema hst n stmt hstmt) ?_
      rintro ⟨s', blocks, next⟩ ⟨t', _, _⟩ ⟨hst', rfl, rfl⟩
      exact (ih hst' next hrest).bind fun later => .ok rfl

theorem alike_genParams (func : FuncDef) (hst : s.Agree asked t) (params : List Param) (i : Nat) :
    Alike (fun e e' => e.fault = e'.fault)
      (fun r r' : List Item × Scope => r.1 = r'.1 ∧ r.2.Agree asked r'.2)
      (genParams func s i params) (genParams func.bare t i params) := by
  induction params generalizing s t i with
  | nil => exact .ok ⟨rfl, hst⟩
  | cons p rest ih =>
      rw [genParams, genParams]
      cases p.type.base.parameterCode with
      | none => exact .error rfl
      | some code =>
          refine Alike.bind (ih (hst.define p.name (innerType p) .line) (i + 1)) ?_
          rintro ⟨items, s'⟩ ⟨_, t'⟩ ⟨rfl, hst'⟩
          exact .ok ⟨rfl, hst'⟩

theorem same_genFunction (schema : Schema) (hst : s.Agree asked t) (func : FuncDef)
    (body : List Stmt) (hcalls : ∀ name ∈ body.filterMap Stmt.callee?, asked name) :
    Same (genFunction schema s func body)
      (genFunction schema t func.bare (body.map Stmt.bare)) := by
  rw [genFunction, genFunction]
  refine Alike.bind (alike_genParams func hst.push func.params 0) ?_
  rintro ⟨params, s'⟩ ⟨_, t'⟩ ⟨rfl, hst'⟩
  refine (same_newBlock _ _ _ _ _ _).bind fun head => ?_
  exact (same_genBody schema hst' 0 body hcalls).bind fun blocks => .ok rfl

/-- Two states went on in the same way: their scopes agree, and the same lines came to both. -/
structure State.InStep (asked : String → Prop) (s t s' t' : State) : Prop where
  scope : s'.scope.Agree asked t'.scope
  lines : ∃ later, s'.lines = s.lines ++ later ∧ t'.lines = t.lines ++ later

theorem inStep_genDefinition (schema : Schema) {s t : State} (hst : s.scope.Agree asked t.scope)
    (d : Definition) (hcalls : ∀ name ∈ d.callees, asked name) :
    Alike (fun e e' => e.fault = e'.fault) (State.InStep asked s t)
      (genDefinition schema s d) (genDefinition schema t d.bare) := by
  cases d with
  | var d =>
      obtain ⟨storage, name, type, value, span⟩ := d
      cases value with
      | some => exact .error rfl
      | none => exact .ok ⟨hst.define name type storage, [], by simp, by simp⟩
  | func d =>
      obtain ⟨name, params, body, span⟩ := d
      have hdef := hst.defineFunction ⟨name, params⟩
      cases body with
      | none => exact .ok ⟨hdef, [], by simp, by simp⟩
      | some body =>
          have hbody : ∀ name ∈ body.filterMap Stmt.callee?, asked name := by
            simpa [Definition.callees] using hcalls
          have hline := same_genFunction schema hdef ⟨name, params, some body, span⟩ body hbody
          refine Alike.bind hline ?_
          rintro line _ rfl
          exact .ok ⟨hdef, [line], rfl, rfl⟩

theorem inStep_run (schema : Schema) {s t : State} (hst : s.scope.Agree asked t.scope)
    (definitions : List Definition)
    (hcalls : ∀ d ∈ definitions, ∀ name ∈ d.callees, asked name) :
    Alike (fun e e' => e.fault = e'.fault) (State.InStep asked s t)
      (definitions.foldlM (genDefinition schema) s)
      ((definitions.map Definition.bare).foldlM (genDefinition schema) t) := by
  induction definitions generalizing s t with
  | nil => exact .ok ⟨hst, [], by simp, by simp⟩
  | cons d rest ih =>
      rw [List.forall_mem_cons] at hcalls
      rw [List.map_cons, List.foldlM_cons, List.foldlM_cons]
      refine Alike.bind (inStep_genDefinition schema hst d hcalls.1) ?_
      rintro s' t' ⟨hst', lines, hs, ht⟩
      refine (ih hst' hcalls.2).imp ?_
      rintro s'' t'' ⟨hst'', later, hs', ht'⟩
      refine ⟨hst'', lines ++ later, ?_, ?_⟩
      · rw [hs', hs, List.append_assoc]
      · rw [ht', ht, List.append_assoc]

theorem foldlM_eq_run (schema : Schema) (definitions : List Definition) (s : State) :
    definitions.foldlM (genDefinition schema) s =
      match Codegen.run schema s definitions with
      | (s', none) => .ok s'
      | (_, some e) => .error e := by
  induction definitions generalizing s with
  | nil => rfl
  | cons d rest ih =>
      rw [List.foldlM_cons, Codegen.run]
      cases genDefinition schema s d with
      | ok s' => exact ih s'
      | error e => rfl

end Codegen

open Codegen

theorem generate_eq (schema : Schema) (definitions : List Definition) :
    generate schema definitions = (do
      let s ← definitions.foldlM (genDefinition schema) .start
      .ok ⟨s.lines⟩) := by
  rw [foldlM_eq_run, generate]
  rcases Codegen.run schema .start definitions with ⟨s, _ | e⟩ <;> rfl

end DiamondScript
