import DiamondScript.Codegen.Definition
import DiamondScript.Proofs.Outcome

namespace DiamondScript

variable {P : Span → Prop}

namespace Expr

mutual

def Placed (P : Span → Prop) : Expr → Prop
  | .number span _ | .str span _ | .styledText span _ | .vector span _ _ _ | .variable span _ =>
    P span
  | .dict span entries => P span ∧ PlacedEntries P entries
  | .list span items => P span ∧ PlacedItems P items
  | .binary span _ opSpan left right => P span ∧ P opSpan ∧ left.Placed P ∧ right.Placed P
  | .index span object key => P span ∧ object.Placed P ∧ key.Placed P
  | .setIndex span object key value =>
    P span ∧ object.Placed P ∧ key.Placed P ∧ value.Placed P
  | .assign span _ value | .cast span _ value => P span ∧ value.Placed P
  | .call span _ args | .action span _ args => P span ∧ PlacedItems P args

def PlacedItems (P : Span → Prop) : List Expr → Prop
  | [] => True
  | e :: rest => e.Placed P ∧ PlacedItems P rest

def PlacedEntries (P : Span → Prop) : List (String × Expr) → Prop
  | [] => True
  | (_, e) :: rest => e.Placed P ∧ PlacedEntries P rest

end

theorem Placed.span {e : Expr} (h : e.Placed P) : P e.span := by
  cases e with
  | number | str | styledText | vector | «variable» => exact h
  | _ => exact h.1

theorem Placed.moveTo {e : Expr} (h : e.Placed P) {span : Span} (hspan : P span) :
    (e.moveTo span).Placed P := by
  cases e with
  | number | str | styledText | vector | «variable» => exact hspan
  | _ => exact ⟨hspan, h.2⟩

end Expr

def Stmt.Placed (P : Span → Prop) : Stmt → Prop
  | .var d => P d.span ∧ ∀ e ∈ d.value, e.Placed P
  | .expr e => e.Placed P

def Definition.Placed (P : Span → Prop) : Definition → Prop
  | .var d => P d.span
  | .func d => P d.span ∧ ∀ body ∈ d.body, ∀ stmt ∈ body, stmt.Placed P

/-- What only a statement or definition that no source contains is at fault for. -/
def SemanticFault.illFormed : SemanticFault → Bool
  | .globalInitializer _ | .statementExpected => true
  | _ => false

section

variable (P : SemanticError → Prop)

/-- Every other fault may be reported at the span. -/
def Allows (span : Span) : Prop := ∀ fault, fault.illFormed = false → P ⟨fault, span⟩

/-- The statement is in form, or what it is at fault for may be reported. -/
def Stmt.Excused : Stmt → Prop
  | .var _ => True
  | .expr e => e.isStatement ∨ P ⟨.statementExpected, e.span⟩

def Definition.Excused : Definition → Prop
  | .var d => d.value = none ∨ P ⟨.globalInitializer d.name, d.span⟩
  | .func d => ∀ body ∈ d.body, ∀ stmt ∈ body, stmt.Excused P

end

namespace Codegen

variable {P : SemanticError → Prop}

def Faults {α : Type} (P : SemanticError → Prop) (x : Result α) : Prop := ∀ e, x = .error e → P e

section

variable {α β : Type}

theorem Faults.bind {x : Result α} {f : α → Result β} (h : Faults P x)
    (hf : ∀ a, Faults P (f a)) : Faults P (x >>= f) := by
  intro e he
  cases x with
  | error e' =>
      cases he
      exact h e rfl
  | ok a => exact hf a e he

theorem faults_ok (a : α) : Faults P (.ok a) := nofun

theorem faults_fail {span : Span} (h : Allows P span) {fault : SemanticFault}
    (hfault : fault.illFormed = false) : Faults P (fail fault span : Result α) := by
  rintro _ ⟨⟩
  exact h fault hfault

theorem faults_liftSchema {span : Span} (h : Allows P span) (x : Except SchemaError α) :
    Faults P (liftSchema span x) := by
  cases x with
  | ok a => exact faults_ok a
  | error e => exact faults_fail h rfl

end

variable {span : Span} (hspan : Allows P span)

section

include hspan

theorem faults_newBlock (schema : Schema) (kind : String) (action : Option String)
    (args : List Item) : Faults P (newBlock schema kind action args span) :=
  faults_liftSchema hspan _

theorem faults_setVar (schema : Schema) (action : String) (args : List Item) :
    Faults P (setVar schema action args span) :=
  faults_newBlock hspan _ _ _ _

theorem faults_checkKey (container : Container) (key : ValueType) :
    Faults P (checkKey container key span) := by
  rw [checkKey]
  split
  · exact faults_ok _
  · exact faults_fail hspan rfl

theorem faults_fillDict (schema : Schema) (target : Item) (entries : List (String × Item)) :
    Faults P (fillDict schema target span entries) := by
  induction entries with
  | nil => exact faults_ok _
  | cons entry rest ih =>
      rw [fillDict]
      exact (faults_setVar hspan _ _ _).bind fun block => ih.bind fun blocks => faults_ok _

theorem faults_checkAssignment (declared actual : ValueType) :
    Faults P (checkAssignment declared actual span) := by
  rw [checkAssignment]
  split
  · exact faults_ok _
  · exact faults_fail hspan rfl
  · exact faults_fail hspan rfl

theorem faults_settle (callee : Callee) (params : List Expectation) (i pos : Nat) (arg : Expr)
    (type : ValueType) : Faults P (settle callee span params i pos arg type) := by
  rw [settle]
  split
  · exact faults_fail hspan rfl
  split
  · exact faults_ok _
  split
  · split
    · exact faults_fail hspan rfl
    · split
      · exact faults_ok _
      · exact faults_fail hspan rfl
  · exact faults_fail hspan rfl

end

mutual

theorem faults_genValue (ctx : Context) :
    ∀ (e : Expr) (dest : Dest) (n : Nat), e.Placed (Allows P) → Faults P (genValue ctx dest n e)
  | .number .., _, _, _ | .str .., _, _, _ | .styledText .., _, _, _ | .vector .., _, _, _ =>
      faults_ok _
  | .variable _ name, _, _, h => by
      rw [genValue]
      split
      · exact faults_ok _
      · exact faults_fail h rfl
  | .dict _ entries, dest, n, ⟨h, hentries⟩ => by
      rw [genValue]
      refine (faults_genEntries ctx entries n hentries).bind fun values => ?_
      refine (faults_setVar h _ _ _).bind fun create => ?_
      exact (faults_fillDict h _ _ _).bind fun fill => faults_ok _
  | .list _ items, dest, n, ⟨h, hitems⟩ => by
      rw [genValue]
      refine (faults_genItems ctx items n hitems).bind fun values => ?_
      exact (faults_setVar h _ _ _).bind fun create => faults_ok _
  | .binary _ op _ left right, dest, n, ⟨h, hop, hleft, hright⟩ => by
      rw [genValue]
      refine (faults_genValue ctx left _ n hleft).bind fun l => ?_
      refine (faults_genValue ctx right _ l.next hright).bind fun r => ?_
      split
      · exact (faults_setVar h _ _ _).bind fun block => faults_ok _
      · exact faults_fail hop rfl
  | .index _ object key, dest, n, ⟨h, hobject, hkey⟩ => by
      rw [genValue]
      refine (faults_genValue ctx object _ n hobject).bind fun o => ?_
      split
      · refine (faults_genValue ctx key _ o.next hkey).bind fun i => ?_
        refine (faults_checkKey hkey.span _ _).bind fun _ => ?_
        exact (faults_setVar h _ _ _).bind fun block => faults_ok _
      · split
        · exact (faults_genValue ctx key _ o.next hkey).bind fun _ => faults_fail h rfl
        · exact faults_fail hobject.span rfl
  | .cast _ type value, dest, n, ⟨_, hvalue⟩ => by
      rw [genValue]
      exact (faults_genValue ctx value dest n hvalue).bind fun v => faults_ok _
  | .assign .., _, _, h | .setIndex .., _, _, h | .call .., _, _, h | .action .., _, _, h => by
      rw [genValue]
      exact faults_fail h.1 rfl

theorem faults_genItems (ctx : Context) :
    ∀ (items : List Expr) (n : Nat), Expr.PlacedItems (Allows P) items →
      Faults P (genItems ctx n items)
  | [], _, _ => faults_ok _
  | e :: rest, n, ⟨he, hrest⟩ => by
      rw [genItems]
      refine (faults_genValue ctx e _ n he).bind fun v => ?_
      exact (faults_genItems ctx rest v.next hrest).bind fun vs => faults_ok _

theorem faults_genEntries (ctx : Context) :
    ∀ (entries : List (String × Expr)) (n : Nat), Expr.PlacedEntries (Allows P) entries →
      Faults P (genEntries ctx n entries)
  | [], _, _ => faults_ok _
  | (key, e) :: rest, n, ⟨he, hrest⟩ => by
      rw [genEntries]
      refine (faults_genValue ctx e _ n he).bind fun v => ?_
      exact (faults_genEntries ctx rest v.next hrest).bind fun vs => faults_ok _

end

section

include hspan

theorem faults_matchArgs (ctx : Context) (callee : Callee) (params : List Expectation)
    {args : List Expr} (hargs : Expr.PlacedItems (Allows P) args) (i : Nat) (cursor : Option Nat)
    (n : Nat) : Faults P (matchArgs ctx callee span params i cursor n args) := by
  induction args generalizing i cursor n with
  | nil => exact faults_ok _
  | cons arg rest ih =>
      rw [matchArgs]
      refine (faults_genValue ctx arg _ n hargs.1).bind fun v => ?_
      refine (faults_settle hspan _ _ _ _ _ _).bind fun pos => ?_
      exact (ih hargs.2 _ _ _).bind fun vs => faults_ok _

theorem faults_resolveArgs (ctx : Context) (callee : Callee) (params : List Expectation) (n : Nat)
    {args : List Expr} (hargs : Expr.PlacedItems (Allows P) args) :
    Faults P (resolveArgs ctx callee span params n args) := by
  rw [resolveArgs]
  refine (faults_matchArgs hspan ctx callee params hargs 0 none n).bind fun matched => ?_
  dsimp only
  split
  · exact faults_fail hspan rfl
  · exact faults_ok _

theorem faults_assignInto (ctx : Context) (name : String) (storage : Storage)
    (declared : ValueType) (n : Nat) {value : Expr} (hvalue : value.Placed (Allows P)) :
    Faults P (assignInto ctx name storage declared n value span) := by
  rw [assignInto]
  refine (faults_genValue ctx value _ n hvalue).bind fun v => ?_
  refine (faults_checkAssignment hspan _ _).bind fun _ => ?_
  split
  · exact faults_ok _
  · exact (faults_setVar hspan _ _ _).bind fun copy => faults_ok _

theorem faults_genSetIndex (ctx : Context) (n : Nat) {object key value : Expr}
    (hobject : object.Placed (Allows P)) (hkey : key.Placed (Allows P))
    (hvalue : value.Placed (Allows P)) :
    Faults P (genSetIndex ctx n object key value span) := by
  rw [genSetIndex]
  refine (faults_genValue ctx object _ n hobject).bind fun o => ?_
  split
  · exact faults_fail hobject.span rfl
  · refine (faults_genValue ctx key _ o.next hkey).bind fun i => ?_
    refine (faults_genValue ctx value _ i.next hvalue).bind fun v => ?_
    refine (faults_checkKey hkey.span _ _).bind fun _ => ?_
    dsimp only
    split
    · exact (faults_setVar hspan _ _ _).bind fun block => faults_ok _
    · exact faults_fail hvalue.span rfl

theorem faults_genCall (ctx : Context) (n : Nat) (name : String) {args : List Expr}
    (hargs : Expr.PlacedItems (Allows P) args) : Faults P (genCall ctx n name args span) := by
  rw [genCall]
  split
  · exact faults_fail hspan rfl
  split
  · exact faults_fail hspan rfl
  · refine (faults_resolveArgs hspan ctx _ _ n hargs).bind fun items => ?_
    exact (faults_newBlock hspan _ _ _ _).bind fun block => faults_ok _

theorem faults_genAction (ctx : Context) (n : Nat) (ref : ActionRef) {args : List Expr}
    (hargs : Expr.PlacedItems (Allows P) args) : Faults P (genAction ctx n ref args span) := by
  rw [genAction]
  refine (faults_liftSchema hspan _).bind fun spec => ?_
  refine (faults_liftSchema hspan _).bind fun identifier => ?_
  split
  · exact faults_fail hspan rfl
  · refine (faults_resolveArgs hspan ctx _ _ n hargs).bind fun items => ?_
    exact (faults_newBlock hspan _ _ _ _).bind fun block => faults_ok _

end

theorem faults_genStmt (ctx : Context) (n : Nat) {stmt : Stmt} (h : stmt.Placed (Allows P))
    (hexcused : stmt.Excused P) : Faults P (genStmt ctx n stmt) := by
  cases stmt with
  | var d =>
      obtain ⟨hspan, hvalue⟩ := h
      rw [genStmt]
      cases hd : d.value with
      | none => exact faults_ok _
      | some value =>
          exact (faults_assignInto hspan _ _ _ _ n (hvalue value hd)).bind fun e => faults_ok _
  | expr e =>
      have hdone {x : Result (Emitted Unit)} (hx : Faults P x) :
          Faults P (x >>= fun em => .ok (Emitted.mk ctx.scope em.blocks em.next)) :=
        hx.bind fun em => faults_ok _
      unfold genStmt
      cases e with
      | assign span name value =>
          dsimp only
          split
          · exact hdone (faults_assignInto h.1 ctx name _ _ n h.2)
          · exact hdone (faults_fail h.1 rfl)
      | setIndex span object key value =>
          obtain ⟨hspan, hobject, hkey, hvalue⟩ := h
          exact hdone (faults_genSetIndex hspan ctx n hobject hkey hvalue)
      | call span name args => exact hdone (faults_genCall h.1 ctx n name h.2)
      | action span ref args => exact hdone (faults_genAction h.1 ctx n ref h.2)
      | _ =>
          refine hdone ?_
          rintro _ ⟨⟩
          exact hexcused.resolve_left Bool.false_ne_true

theorem faults_genBody (schema : Schema) {body : List Stmt}
    (h : ∀ stmt ∈ body, stmt.Placed (Allows P)) (hexcused : ∀ stmt ∈ body, stmt.Excused P)
    (scope : Scope) (n : Nat) : Faults P (genBody schema scope n body) := by
  induction body generalizing scope n with
  | nil => exact faults_ok _
  | cons stmt rest ih =>
      obtain ⟨hstmt, hrest⟩ := List.forall_mem_cons.mp h
      obtain ⟨hstmt', hrest'⟩ := List.forall_mem_cons.mp hexcused
      rw [genBody]
      exact (faults_genStmt _ n hstmt hstmt').bind fun e =>
        (ih hrest hrest' _ _).bind fun blocks => faults_ok _

theorem faults_genParams {func : FuncDef} (h : Allows P func.span) (params : List Param)
    (scope : Scope) (i : Nat) : Faults P (genParams func scope i params) := by
  induction params generalizing scope i with
  | nil => exact faults_ok _
  | cons p rest ih =>
      rw [genParams]
      split
      · exact faults_fail h rfl
      · exact (ih _ _).bind fun r => faults_ok _

theorem faults_genDefinition (schema : Schema) (s : State) {d : Definition}
    (h : d.Placed (Allows P)) (hexcused : d.Excused P) :
    Faults P (genDefinition schema s d) := by
  cases d with
  | var d =>
      rw [genDefinition]
      split
      case h_1 hvalue =>
        rintro _ ⟨⟩
        exact hexcused.resolve_left (by simp [hvalue])
      case h_2 => exact faults_ok _
  | func d =>
      obtain ⟨hspan, hbody⟩ := h
      rw [genDefinition]
      cases hd : d.body with
      | none => exact faults_ok _
      | some body =>
          refine Faults.bind ?_ fun line => faults_ok _
          rw [genFunction]
          refine (faults_genParams hspan _ _ _).bind fun r => ?_
          refine (faults_newBlock hspan _ _ _ _).bind fun head => ?_
          exact (faults_genBody schema (hbody body hd) (hexcused body hd) _ _).bind fun blocks =>
            faults_ok _

theorem run_error (schema : Schema) {definitions : List Definition}
    (h : ∀ d ∈ definitions, d.Placed (Allows P)) (hexcused : ∀ d ∈ definitions, d.Excused P)
    (s : State) {e : SemanticError} (he : (Codegen.run schema s definitions).2 = some e) : P e := by
  induction definitions generalizing s with
  | nil => cases he
  | cons d rest ih =>
      obtain ⟨hd, hrest⟩ := List.forall_mem_cons.mp h
      obtain ⟨hd', hrest'⟩ := List.forall_mem_cons.mp hexcused
      rw [Codegen.run] at he
      cases hgen : genDefinition schema s d with
      | ok s' =>
          rw [hgen] at he
          exact ih hrest hrest' s' he
      | error e' =>
          rw [hgen] at he
          cases he
          exact faults_genDefinition schema s hd hd' e hgen

end Codegen

open Codegen

theorem generate_fault {P : SemanticError → Prop} {schema : Schema} {definitions : List Definition}
    (h : ∀ d ∈ definitions, d.Placed (Allows P)) (hexcused : ∀ d ∈ definitions, d.Excused P)
    {e : SemanticError} (he : generate schema definitions = .error e) : P e := by
  rw [generate] at he
  split at he
  case h_1 => cases he
  case h_2 hrun =>
    cases he
    exact run_error schema h hexcused .start (by rw [hrun])

theorem Definition.Placed.excused {d : Definition} (h : d.Placed P) :
    d.Excused fun e => P e.span := by
  cases d with
  | var d => exact .inr h
  | func d =>
      intro body hbody stmt hmem
      have hstmt := h.2 body hbody stmt hmem
      cases stmt with
      | var d => trivial
      | expr e => exact .inr (Expr.Placed.span hstmt)

/-- The generator reports errors only at spans of what it is given. -/
theorem generate_error {schema : Schema} {definitions : List Definition}
    (h : ∀ d ∈ definitions, d.Placed P) {e : SemanticError}
    (he : generate schema definitions = .error e) : P e.span := by
  have hallows : Allows (fun e => P e.span) = P :=
    funext fun _ => propext ⟨fun h => h .noValue rfl, fun h _ _ => h⟩
  refine generate_fault ?_ (fun d hd => (h d hd).excused) he
  rw [hallows]
  exact h

end DiamondScript
