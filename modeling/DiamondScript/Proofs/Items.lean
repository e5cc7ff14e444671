import DiamondScript.Proofs.Freshness

namespace DiamondScript

def Codeblock.variables (b : Codeblock) : List (String × String) :=
  b.args.filterMap Item.asVariable?

theorem forall₂_getElem? {α β : Type} {R : α → β → Prop} {as : List α} {bs : List β}
    (h : List.Forall₂ R as bs) {i : Nat} {b : β} (hb : bs[i]? = some b) :
    ∃ a, as[i]? = some a ∧ R a b := by
  induction h generalizing i with
  | nil => cases hb
  | cons head _ ih =>
      cases i with
      | zero =>
          cases hb
          exact ⟨_, rfl, head⟩
      | succ i => exact ih hb

def Definition.coded? : Definition → Option FuncDef
  | .var _ => none
  | .func d => d.body.map fun _ => d

namespace Machine

open Codegen

/-- An argument with the given variables: no tag, and if it is a variable, one of these. -/
def Within (vars : List Var) (item : Item) : Prop :=
  match item.kind with
  | .variable name scope => (name, scope) ∈ vars
  | .tag .. => False
  | _ => True

theorem Within.mono {vars vars' : List Var} {item : Item} (h : Within vars item)
    (hsub : vars ⊆ vars') : Within vars' item := by
  unfold Within at h ⊢
  split at h
  · exact hsub h
  · exact h
  · trivial

theorem Within.mem {vars : List Var} {item : Item} (h : Within vars item) {x : Var}
    (hx : item.asVariable? = some x) : x ∈ vars := by
  unfold Within at h
  unfold Item.asVariable? at hx
  split at hx
  · rename_i hkind
    cases hx
    rwa [hkind] at h
  · cases hx

theorem within_numberSlots {vars : List Var} {items : List Item}
    (h : ∀ item ∈ items, Within vars item) (slot : Nat) :
    ∀ item ∈ numberSlots slot items, Within vars item := by
  induction items generalizing slot with
  | nil => exact h
  | cons item rest ih =>
      rw [List.forall_mem_cons] at h
      rw [numberSlots, List.forall_mem_cons]
      exact ⟨h.1, ih h.2 (slot + 1)⟩

/-- The items of a block stand in the slots from 0 on and are arguments with the given variables. -/
structure Uses (vars : List Var) (b : Codeblock) : Prop where
  numbered : ∃ items, b.args = numberSlots 0 items
  within : ∀ item ∈ b.args, Within vars item

theorem Uses.mono {vars vars' : List Var} {b : Codeblock} (h : Uses vars b)
    (hsub : vars ⊆ vars') : Uses vars' b :=
  ⟨h.numbered, fun item hm => (h.within item hm).mono hsub⟩

theorem Uses.variables_subset {vars : List Var} {b : Codeblock} (h : Uses vars b) :
    b.variables ⊆ vars := by
  intro x hx
  obtain ⟨item, hm, hx⟩ := List.mem_filterMap.mp hx
  exact (h.within item hm).mem hx

theorem uses_of_args {vars : List Var} {b : Codeblock} {items : List Item}
    (hargs : b.args = numberSlots 0 items) (hitems : ∀ item ∈ items, Within vars item) :
    Uses vars b :=
  ⟨⟨items, hargs⟩, hargs ▸ within_numberSlots hitems 0⟩

theorem uses_newBlock {schema : Schema} {kind : String} {action : Option String}
    {args : List Item} {span : Span} {b : Codeblock} {vars : List Var}
    (h : newBlock schema kind action args span = .ok b)
    (hargs : ∀ item ∈ args, Within vars item) : Uses vars b :=
  uses_of_args (newBlock_args h) hargs

theorem uses_fillDict {schema : Schema} {target : Item} {span : Span}
    {entries : List (String × Item)} {fill : List Codeblock} {vars : List Var}
    (h : fillDict schema target span entries = .ok fill) (htarget : Within vars target)
    (hentries : ∀ e ∈ entries, Within vars e.2) : ∀ b ∈ fill, Uses vars b := by
  induction entries generalizing fill with
  | nil =>
      cases h
      simp
  | cons entry rest ih =>
      rw [List.forall_mem_cons] at hentries
      rw [fillDict] at h
      obtain ⟨block, hblock, h⟩ := bind_eq_ok.mp h
      obtain ⟨blocks, hblocks, h⟩ := bind_eq_ok.mp h
      cases h
      rw [List.forall_mem_cons]
      refine ⟨uses_newBlock hblock ?_, ih hblocks hentries.2⟩
      simp only [List.forall_mem_cons]
      exact ⟨htarget, trivial, hentries.1, List.forall_mem_nil _⟩

theorem uses_finish {schema : Schema} {target : Item} {e : Expr} {vs : List Value}
    {type : ValueType} {blocks : List Codeblock} {vars : List Var}
    (h : Finishes schema target e vs type blocks) (htarget : Within vars target)
    (hvs : ∀ v ∈ vs, Within vars v.item) : ∀ b ∈ blocks, Uses vars b := by
  cases h with
  | dict created filled =>
      rw [List.forall_mem_cons]
      refine ⟨uses_newBlock created (by simpa using htarget), uses_fillDict filled htarget ?_⟩
      intro e he
      obtain ⟨⟨key, v⟩, hm, rfl⟩ := List.mem_map.mp he
      exact hvs v (List.of_mem_zip hm).2
  | list created =>
      rw [List.forall_mem_singleton]
      refine uses_newBlock created ?_
      rw [List.forall_mem_cons, List.forall_mem_map]
      exact ⟨htarget, hvs⟩
  | binary _ _ _ _ computed | index _ _ _ _ computed =>
      rw [List.forall_mem_singleton]
      refine uses_newBlock computed ?_
      simp only [List.forall_mem_cons] at hvs ⊢
      exact ⟨htarget, hvs.1, hvs.2.1, List.forall_mem_nil _⟩

theorem within_compiles {ctx : Context} {dest : Dest} {n : Nat} {e : Expr} {v : Emitted Value}
    (h : Compiles ctx dest n e v) :
    Within (temporaries n (hintsOf dest.own e) ++ (named dest ++ variablesOf ctx.scope e))
      v.result.item := by
  induction h with
  | number | str | styledText | vector => trivial
  | @name dest n span name b bound =>
      have hx : (name, b.storage.wireName) ∈ variablesOf ctx.scope (.variable span name) :=
        direct?_mem (by rw [direct?, resolve?, bound]; rfl)
      exact List.mem_append_right _ (List.mem_append_right _ hx)
  | @computed dest n e vs target next type blocks values placed finish ih =>
      rw [place_eq, (writes_operands values).next_eq] at placed
      cases placed
      rw [finish.hintsOf_eq, temporaries_append]
      have htarget := target_mem dest (n + (hintsAll (operands e)).length)
      change (dest.target (n + (hintsAll (operands e)).length)) ∈ _
      simp only [List.mem_append] at htarget ⊢
      exact htarget.imp .inr .inl
  | cast span type inner hv =>
      rw [hintsOf]
      exact hv

def operandVars (ctx : Context) (n : Nat) (ops : List (String × Expr)) : List Var :=
  temporaries n (hintsAll ops) ++ variablesAll ctx.scope ops

theorem subset_operandVars_cons (ctx : Context) (n : Nat) (hint : String) (e : Expr)
    (ops : List (String × Expr)) :
    temporaries n (hintsOf [hint] e) ++ variablesOf ctx.scope e ⊆
      operandVars ctx n ((hint, e) :: ops) := by
  intro x hx
  rw [operandVars, hintsAll_cons, variablesAll_cons, temporaries_append]
  simp only [List.mem_append] at hx ⊢
  exact hx.imp .inl .inl

theorem operandVars_subset_cons (ctx : Context) (n : Nat) (hint : String) (e : Expr)
    (ops : List (String × Expr)) :
    operandVars ctx (n + (hintsOf [hint] e).length) ops ⊆
      operandVars ctx n ((hint, e) :: ops) := by
  intro x hx
  rw [operandVars, hintsAll_cons, variablesAll_cons, temporaries_append]
  simp only [operandVars, List.mem_append] at hx ⊢
  exact hx.imp .inr .inr

theorem within_operands {ctx : Context} {n : Nat} {ops : List (String × Expr)}
    {vs : Emitted (List Value)} (h : Each (fun hint => Compiles ctx (.temp hint)) n ops vs) :
    ∀ v ∈ vs.result, Within (operandVars ctx n ops) v.item := by
  induction h with
  | nil => exact List.forall_mem_nil _
  | @cons hint n e es v vs hc _ ih =>
      rw [(writes_compiles hc).next_eq] at ih
      rw [List.forall_mem_cons]
      constructor
      · exact (within_compiles hc).mono (subset_operandVars_cons ctx n hint e es)
      · exact fun w hw => (ih w hw).mono (operandVars_subset_cons ctx n hint e es)

theorem uses_each {ctx : Context} {n : Nat} {ops : List (String × Expr)}
    {vs : Emitted (List Value)}
    (h : Each (fun hint n e v => Compiles ctx (.temp hint) n e v ∧ ∀ b ∈ v.blocks,
      Uses (temporaries n (hintsOf [hint] e) ++ variablesOf ctx.scope e) b) n ops vs) :
    ∀ b ∈ vs.blocks, Uses (operandVars ctx n ops) b := by
  induction h with
  | nil => exact List.forall_mem_nil _
  | @cons hint n e es v vs head _ ih =>
      obtain ⟨hc, hhead⟩ := head
      rw [(writes_compiles hc).next_eq] at ih
      rw [List.forall_mem_append]
      constructor
      · exact fun b hb => (hhead b hb).mono (subset_operandVars_cons ctx n hint e es)
      · exact fun b hb => (ih b hb).mono (operandVars_subset_cons ctx n hint e es)

theorem uses_compiles {ctx : Context} {dest : Dest} {n : Nat} {e : Expr} {v : Emitted Value}
    (h : Compiles ctx dest n e v) :
    ∀ b ∈ v.blocks,
      Uses (temporaries n (hintsOf dest.own e) ++ (named dest ++ variablesOf ctx.scope e)) b := by
  induction h with
  | number | str | styledText | vector | name => simp
  | @computed dest n e vs target next type blocks values placed finish ih =>
      have htarget := within_compiles (.computed values placed finish)
      rw [finish.hintsOf_eq, temporaries_append, variablesOf_computed finish] at htarget ⊢
      have hsub : operandVars ctx n (operands e) ⊆ (temporaries n (hintsAll (operands e)) ++
          temporaries (n + (hintsAll (operands e)).length) dest.own) ++
          (named dest ++ variablesAll ctx.scope (operands e)) := by
        intro x hx
        simp only [operandVars, List.mem_append] at hx ⊢
        exact hx.imp .inl .inr
      rw [List.forall_mem_append]
      constructor
      · have hblocks := uses_each (ih.imp fun ⟨hc, hb⟩ => ⟨hc, hb⟩)
        exact fun b hb => (hblocks b hb).mono hsub
      · exact uses_finish finish htarget fun v hv => (within_operands values v hv).mono hsub
  | cast span type inner hv =>
      rw [hintsOf]
      exact hv

theorem uses_operands {ctx : Context} {n : Nat} {ops : List (String × Expr)}
    {vs : Emitted (List Value)} (h : Each (fun hint => Compiles ctx (.temp hint)) n ops vs) :
    ∀ b ∈ vs.blocks, Uses (operandVars ctx n ops) b :=
  uses_each (h.imp fun hc => ⟨hc, uses_compiles hc⟩)

theorem uses_assignInto {ctx : Context} {name : String} {storage : Storage}
    {declared : ValueType} {n : Nat} {value : Expr} {span : Span} {em : Emitted Unit}
    (h : assignInto ctx name storage declared n value span = .ok em) :
    ∀ b ∈ em.blocks, Uses (temporaries n (hintsOf [] value) ++
      ((name, storage.wireName) :: variablesOf ctx.scope value)) b := by
  obtain ⟨v, copy, hc, -, hcopy, rfl⟩ := assignInto_eq_ok.mp h
  rw [List.forall_mem_append]
  refine ⟨uses_compiles hc, ?_⟩
  unfold Copies at hcopy
  split at hcopy
  case isTrue => simp [hcopy]
  case isFalse =>
    obtain ⟨block, hblock, rfl⟩ := hcopy
    rw [List.forall_mem_singleton]
    refine uses_newBlock hblock ?_
    rw [List.forall_mem_cons, List.forall_mem_singleton]
    exact ⟨List.mem_append_right _ List.mem_cons_self, within_compiles hc⟩

theorem uses_genSetIndex {ctx : Context} {n : Nat} {object index value : Expr} {span : Span}
    {em : Emitted Unit} (h : genSetIndex ctx n object index value span = .ok em) :
    ∀ b ∈ em.blocks, Uses (operandVars ctx n (elementOperands object index value)) b := by
  obtain ⟨vs, o, i, v, container, block, hops, hres, -, -, -, hblock, rfl⟩ := genSetIndex_eq_ok h
  have hitems := within_operands hops
  rw [hres] at hitems
  rw [List.forall_mem_append, List.forall_mem_singleton]
  refine ⟨uses_operands hops, uses_newBlock hblock ?_⟩
  simp only [List.forall_mem_cons] at hitems ⊢
  exact ⟨hitems.1, hitems.2.1, hitems.2.2.1, List.forall_mem_nil _⟩

theorem uses_calls {ctx : Context} {n : Nat} {args : List Expr} {em : Emitted Unit}
    (h : Calls ctx n args em) :
    ∀ b ∈ em.blocks, Uses (operandVars ctx n (argumentOperands args)) b := by
  obtain ⟨vs, items, block, hops, hitems, hargs, rfl⟩ := h
  rw [List.forall_mem_append, List.forall_mem_singleton]
  refine ⟨uses_operands hops, uses_of_args hargs fun item hitem => ?_⟩
  obtain ⟨v, hv, hkind⟩ := hitems item hitem
  have hwithin := within_operands hops v hv
  rwa [Within, ← hkind] at hwithin

theorem uses_genStmt {ctx : Context} {n : Nat} {stmt : Stmt} {em : Emitted Scope}
    (h : genStmt ctx n stmt = .ok em) :
    ∀ b ∈ em.blocks, Uses (temporaries n (stmtHints stmt) ++ stmtVariables ctx.scope stmt) b := by
  cases stmt with
  | var d =>
      obtain ⟨storage, name, type, value, span⟩ := d
      cases value with
      | none =>
          cases h
          simp
      | some value =>
          obtain ⟨em', h', rfl⟩ := genStmt_var.mp h
          simp only [stmtHints, stmtVariables, Option.toList_some, List.flatMap_singleton]
          exact uses_assignInto h'
  | expr e =>
      cases e with
      | assign span name value =>
          obtain ⟨b, em', hb, h', rfl⟩ := genStmt_assign.mp h
          have hvars : stmtVariables ctx.scope (.expr (.assign span name value)) =
              (name, b.storage.wireName) :: variablesOf ctx.scope value := by
            simp [stmtVariables, variablesOf, Expr.names, resolve?, hb]
          rw [hvars]
          exact uses_assignInto h'
      | setIndex span object index value =>
          obtain ⟨em', h', rfl⟩ := genStmt_setIndex.mp h
          rw [stmtVariables, ← variablesAll_elementOperands]
          exact uses_genSetIndex h'
      | call span name args =>
          obtain ⟨em', h', hem⟩ := bind_eq_ok.mp h
          cases hem
          rw [stmtVariables, variablesOf, Expr.names, ← variablesAll_argumentOperands]
          exact uses_calls (calls_genCall h')
      | action span ref args =>
          obtain ⟨em', h', hem⟩ := bind_eq_ok.mp h
          cases hem
          rw [stmtVariables, variablesOf, Expr.names, ← variablesAll_argumentOperands]
          exact uses_calls (calls_genAction h')
      | _ => simp [genStmt, bind_eq_ok] at h

/-- The blocks of a body come statement by statement. Each statement starts with the names that
the ones before it left, and with the next free temporary. -/
theorem genBody_parts {schema : Schema} {scope : Scope} {n : Nat} {body : List Stmt}
    {blocks : List Codeblock} (h : genBody schema scope n body = .ok blocks) :
    ∃ parts : List (List Codeblock), blocks = parts.flatten ∧ parts.length = body.length ∧
      ∀ i stmt part, body[i]? = some stmt → parts[i]? = some part →
        ∃ em, genStmt ⟨schema, (body.take i).foldl stmtScope scope⟩
            (n + (bodyHints (body.take i)).length) stmt = .ok em ∧ em.blocks = part := by
  induction body generalizing scope n blocks with
  | nil =>
      cases h
      exact ⟨[], rfl, rfl, nofun⟩
  | cons stmt rest ih =>
      rw [genBody] at h
      obtain ⟨em, hem, h⟩ := bind_eq_ok.mp h
      obtain ⟨later, hlater, h⟩ := bind_eq_ok.mp h
      cases h
      obtain ⟨hscope, hstmt⟩ := writes_genStmt hem
      rw [hscope, hstmt.next_eq] at hlater
      obtain ⟨parts, rfl, hlength, hparts⟩ := ih hlater
      refine ⟨em.blocks :: parts, rfl, by rw [List.length_cons, List.length_cons, hlength], ?_⟩
      intro i stmt' part hi hpart
      cases i with
      | zero =>
          cases hi
          cases hpart
          exact ⟨em, hem, rfl⟩
      | succ i =>
          have hcount : n + (bodyHints ((stmt :: rest).take (i + 1))).length =
              n + (stmtHints stmt).length + (bodyHints (rest.take i)).length := by
            rw [List.take_succ_cons, bodyHints, List.flatMap_cons, List.length_append,
              ← Nat.add_assoc]
            rfl
          rw [hcount]
          exact hparts i stmt' part hi hpart

theorem within_genParams {func : FuncDef} {scope inner : Scope} {i : Nat} {params : List Param}
    {items : List Item} (h : genParams func scope i params = .ok (items, inner)) :
    ∀ item ∈ items, Within [] item := by
  induction params generalizing scope i items with
  | nil =>
      cases h
      simp
  | cons p rest ih =>
      rw [genParams] at h
      split at h
      · simp at h
      · obtain ⟨⟨items', inner'⟩, hrest, h⟩ := bind_eq_ok.mp h
        cases h
        rw [List.forall_mem_cons]
        exact ⟨trivial, ih hrest⟩

theorem genFunction_parts {schema : Schema} {r : Routine} {line : Codeline}
    (h : genFunction schema r.scope r.func r.body = .ok line) :
    ∃ (head : Codeblock) (parts : List (List Codeblock)), line = ⟨head :: parts.flatten⟩ ∧
      Uses [] head ∧ parts.length = r.body.length ∧
      ∀ i stmt part, r.body[i]? = some stmt → parts[i]? = some part →
        ∃ em, genStmt ⟨schema, (r.body.take i).foldl stmtScope r.inner⟩
            (bodyHints (r.body.take i)).length stmt = .ok em ∧ em.blocks = part := by
  rw [genFunction] at h
  obtain ⟨⟨params, inner⟩, hparams, h⟩ := bind_eq_ok.mp h
  obtain ⟨head, hhead, h⟩ := bind_eq_ok.mp h
  obtain ⟨blocks, hblocks, h⟩ := bind_eq_ok.mp h
  cases h
  have hinner : inner = r.inner := genParams_scope hparams
  rw [hinner] at hblocks
  obtain ⟨parts, rfl, hlength, hparts⟩ := genBody_parts hblocks
  simp only [Nat.zero_add] at hparts
  have hargs := newBlock_args hhead
  have huses : Uses [] (head.withData r.func.name) := uses_of_args hargs (within_genParams hparams)
  exact ⟨_, parts, rfl, huses, hlength, hparts⟩

theorem map_func_routines (scope : Scope) (definitions : List Definition) :
    (routines scope definitions).map Routine.func = definitions.filterMap Definition.coded? := by
  induction definitions generalizing scope with
  | nil => rfl
  | cons d rest ih =>
      cases d with
      | var d => exact ih _
      | func d =>
          rw [routines]
          cases hbody : d.body with
          | none =>
              rw [List.filterMap_cons_none (by rw [Definition.coded?, hbody]; rfl)]
              exact ih _
          | some body =>
              rw [List.filterMap_cons_some (by rw [Definition.coded?, hbody]; rfl)]
              exact congrArg (d :: ·) (ih _)

theorem length_routines (scope : Scope) (definitions : List Definition) :
    (routines scope definitions).length = (definitions.filterMap Definition.coded?).length := by
  rw [← map_func_routines scope, List.length_map]

theorem generate_lines {schema : Schema} {definitions : List Definition} {program : Program}
    (h : generate schema definitions = .ok program) :
    List.Forall₂ (fun line r => genFunction schema r.scope r.func r.body = .ok line) program.lines
      (routines .empty definitions) := by
  rw [generate] at h
  split at h
  case h_2 => cases h
  case h_1 s hrun =>
    cases h
    obtain ⟨lines, hlines, hall⟩ := run_lines hrun
    rw [hlines]
    exact hall

end Machine
end DiamondScript
