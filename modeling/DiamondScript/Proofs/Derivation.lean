import DiamondScript.Codegen.Statement
import DiamondScript.Proofs.Outcome

namespace DiamondScript.Codegen

@[simp] theorem fail_eq_ok {α : Type} {fault : SemanticFault} {span : Span} {a : α} :
    fail fault span = .ok a ↔ False := by
  simp [fail]

@[simp] theorem checkKey_eq_ok {container : Container} {key : ValueType} {span : Span} :
    checkKey container key span = .ok () ↔ key.base = container.key := by
  unfold checkKey
  split <;> simp_all

@[simp] theorem liftSchema_eq_ok {α : Type} {span : Span} {x : Except SchemaError α} {a : α} :
    liftSchema span x = .ok a ↔ x = .ok a := by
  cases x <;> simp [liftSchema]

theorem newBlock_eq_ok {schema : Schema} {kind : String} {action : Option String}
    {args : List Item} {span : Span} {b : Codeblock} :
    newBlock schema kind action args span = .ok b ↔
      ∃ spec, schema.blockAction kind action = .ok spec ∧
        b = ⟨kind, none, if Schema.isDynamic kind then none else action, numberSlots 0 args, none,
          Codeblock.defaultTags spec.tags⟩ := by
  rw [newBlock, liftSchema_eq_ok, Codeblock.new]
  cases schema.blockAction kind action with
  | error e => simp [bind, Except.bind]
  | ok spec =>
      simp only [bind, Except.bind, Except.ok.injEq, exists_eq_left']
      exact eq_comm

def operands : Expr → List (String × Expr)
  | .dict _ entries => entries.map fun entry => ("__dict", entry.2)
  | .list _ items => items.map fun item => ("__list", item)
  | .binary _ _ _ left right => [("__bin_l", left), ("__bin_r", right)]
  | .index _ object index => [("__obj", object), ("__idx", index)]
  | _ => []

/-- Code for operands one after the other, each starting with the temporary that the one before
it left. -/
inductive Each (R : String → Nat → Expr → Emitted Value → Prop) :
    Nat → List (String × Expr) → Emitted (List Value) → Prop
  | nil (n : Nat) : Each R n [] ⟨[], [], n⟩
  | cons {hint : String} {n : Nat} {e : Expr} {es : List (String × Expr)} {v : Emitted Value}
      {vs : Emitted (List Value)} (head : R hint n e v) (tail : Each R v.next es vs) :
      Each R n ((hint, e) :: es) ⟨v.result :: vs.result, v.blocks ++ vs.blocks, vs.next⟩

theorem Each.imp {R S : String → Nat → Expr → Emitted Value → Prop}
    (hRS : ∀ {hint n e v}, R hint n e v → S hint n e v) {n : Nat} {es : List (String × Expr)}
    {vs : Emitted (List Value)} (h : Each R n es vs) : Each S n es vs := by
  induction h with
  | nil n => exact .nil n
  | cons head _ ih => exact .cons (hRS head) ih

theorem Each.length_eq {R : String → Nat → Expr → Emitted Value → Prop} {n : Nat}
    {es : List (String × Expr)} {vs : Emitted (List Value)} (h : Each R n es vs) :
    vs.result.length = es.length := by
  induction h with
  | nil => rfl
  | cons _ _ ih => rw [List.length_cons, List.length_cons, ih]

theorem each_pair {R : String → Nat → Expr → Emitted Value → Prop} {n : Nat} {h h' : String}
    {e e' : Expr} {vs : Emitted (List Value)} :
    Each R n [(h, e), (h', e')] vs ↔ ∃ v w, R h n e v ∧ R h' v.next e' w ∧
      vs = ⟨[v.result, w.result], v.blocks ++ w.blocks, w.next⟩ := by
  constructor
  · rintro (_ | ⟨head, _ | ⟨head', _ | _⟩⟩)
    exact ⟨_, _, head, head', by simp⟩
  · rintro ⟨v, w, head, head', rfl⟩
    have := Each.cons head (Each.cons head' (.nil w.next))
    rwa [List.append_nil] at this

def keyed (entries : List (String × Expr)) (values : List Value) : List (String × Value) :=
  (entries.map Prod.fst).zip values

/-- The blocks that compute a value into its target once its operands are there, and the type
of the value. -/
inductive Finishes (schema : Schema) (target : Item) :
    Expr → List Value → ValueType → List Codeblock → Prop
  | dict {span : Span} {entries : List (String × Expr)} {vs : List Value} {create : Codeblock}
      {fill : List Codeblock}
      (created : setVar schema "CreateDict" [target] span = .ok create)
      (filled : fillDict schema target span ((keyed entries vs).map fun e => (e.1, e.2.item))
        = .ok fill) :
      Finishes schema target (.dict span entries) vs
        (.literal .dict [.any] ((keyed entries vs).map fun e => (.name e.1, e.2.type)))
        (create :: fill)
  | list {span : Span} {items : List Expr} {vs : List Value} {create : Codeblock}
      (created : setVar schema "CreateList" (target :: vs.map Value.item) span = .ok create) :
      Finishes schema target (.list span items) vs
        (.literal .list [.any] (vs.zipIdx.map fun e => (.position e.2, e.1.type))) [create]
  | binary {span : Span} {op : BinaryOp} (opSpan : Span) (left right : Expr) {l r : Value}
      {block : Codeblock} (numbers : l.type.base = .num ∧ r.type.base = .num)
      (computed : setVar schema op.action [target, l.item, r.item] span = .ok block) :
      Finishes schema target (.binary span op opSpan left right) [l, r] .num [block]
  | index {span : Span} (object index : Expr) {o i : Value} {container : Container}
      {block : Codeblock} (indexed : containerOf? o.type = some container)
      (key : i.type.base = container.key)
      (fetched : setVar schema (getAction container) [target, o.item, i.item] span = .ok block) :
      Finishes schema target (.index span object index) [o, i] o.type.element [block]

/-- The code of a value, as rules: literals and variables stand for themselves, a computed value
follows its operands, and a cast only changes the type. -/
inductive Compiles (ctx : Context) : Dest → Nat → Expr → Emitted Value → Prop
  | number (dest : Dest) (n : Nat) (span : Span) (x : Binary64) :
      Compiles ctx dest n (.number span x) ⟨⟨.num, .ofKind (.number x)⟩, [], n⟩
  | str (dest : Dest) (n : Nat) (span : Span) (s : String) :
      Compiles ctx dest n (.str span s) ⟨⟨.simple .str, .ofKind (.string s)⟩, [], n⟩
  | styledText (dest : Dest) (n : Nat) (span : Span) (s : String) :
      Compiles ctx dest n (.styledText span s) ⟨⟨.simple .txt, .ofKind (.styledText s)⟩, [], n⟩
  | vector (dest : Dest) (n : Nat) (span : Span) (x y z : Binary64) :
      Compiles ctx dest n (.vector span x y z) ⟨⟨.simple .vec, .ofKind (.vector x y z)⟩, [], n⟩
  | name (dest : Dest) (n : Nat) (span : Span) {name : String} {b : Binding}
      (bound : ctx.scope.binding? name = some b) :
      Compiles ctx dest n (.variable span name)
        ⟨⟨b.type, .ofVariable name b.storage.wireName⟩, [], n⟩
  | computed {dest : Dest} {n : Nat} {e : Expr} {vs : Emitted (List Value)} {target : Item}
      {next : Nat} {type : ValueType} {blocks : List Codeblock}
      (values : Each (fun hint => Compiles ctx (.temp hint)) n (operands e) vs)
      (placed : place dest vs.next = (target, next))
      (finish : Finishes ctx.schema target e vs.result type blocks) :
      Compiles ctx dest n e ⟨⟨type, target⟩, vs.blocks ++ blocks, next⟩
  | cast {dest : Dest} {n : Nat} (span : Span) (type : ValueType) {value : Expr}
      {v : Emitted Value} (inner : Compiles ctx dest n value v) :
      Compiles ctx dest n (.cast span type value)
        ⟨⟨type.withEntries v.result.type.entries?, v.result.item⟩, v.blocks, v.next⟩

/-- Induction on the rules. For operands the hypothesis is given one by one along their list. -/
@[induction_eliminator]
theorem Compiles.induct {ctx : Context}
    {motive : ∀ (dest : Dest) (n : Nat) (e : Expr) (v : Emitted Value),
      Compiles ctx dest n e v → Prop}
    (number : ∀ dest n span x, motive dest n _ _ (.number dest n span x))
    (str : ∀ dest n span s, motive dest n _ _ (.str dest n span s))
    (styledText : ∀ dest n span s, motive dest n _ _ (.styledText dest n span s))
    (vector : ∀ dest n span x y z, motive dest n _ _ (.vector dest n span x y z))
    (name : ∀ dest n span {name b} (bound : ctx.scope.binding? name = some b),
      motive dest n _ _ (.name dest n span bound))
    (computed : ∀ {dest n e vs target next type blocks}
      (values : Each (fun hint => Compiles ctx (.temp hint)) n (operands e) vs)
      (placed : place dest vs.next = (target, next))
      (finish : Finishes ctx.schema target e vs.result type blocks)
      (_ : Each (fun hint n e v => ∃ h, motive (.temp hint) n e v h) n (operands e) vs),
      motive dest n _ _ (.computed values placed finish))
    (cast : ∀ {dest n} span type {value v} (inner : Compiles ctx dest n value v)
      (_ : motive _ _ _ _ inner), motive dest n _ _ (.cast span type inner))
    {dest : Dest} {n : Nat} {e : Expr} {v : Emitted Value} (h : Compiles ctx dest n e v) :
    motive dest n e v h :=
  @Compiles.rec ctx motive
    (fun n es vs _ => Each (fun hint n e v => ∃ h, motive (.temp hint) n e v h) n es vs)
    number str styledText vector name computed cast
    .nil (fun head _ hm ht => .cons ⟨head, hm⟩ ht) dest n e v h

mutual

theorem compiles_of_genValue {ctx : Context} :
    ∀ (e : Expr) {dest : Dest} {n : Nat} {v : Emitted Value},
      genValue ctx dest n e = .ok v → Compiles ctx dest n e v
  | .number .., _, _, _, h => by
      cases h
      exact .number ..
  | .str .., _, _, _, h => by
      cases h
      exact .str ..
  | .styledText .., _, _, _, h => by
      cases h
      exact .styledText ..
  | .vector .., _, _, _, h => by
      cases h
      exact .vector ..
  | .variable _ name, _, _, _, h => by
      rw [genValue] at h
      cases hb : ctx.scope.binding? name with
      | none => simp [hb] at h
      | some b =>
          rw [hb] at h
          cases h
          exact .name _ _ _ hb
  | .dict _ entries, _, _, _, h => by
      rw [genValue] at h
      obtain ⟨em, hem, h⟩ := bind_eq_ok.mp h
      obtain ⟨vs, hvs, rfl⟩ := each_of_genEntries entries hem
      obtain ⟨create, hcreate, h⟩ := bind_eq_ok.mp h
      obtain ⟨fill, hfill, h⟩ := bind_eq_ok.mp h
      cases h
      exact .computed hvs rfl (.dict hcreate hfill)
  | .list _ items, _, _, _, h => by
      rw [genValue] at h
      obtain ⟨vs, hvs, h⟩ := bind_eq_ok.mp h
      obtain ⟨create, hcreate, h⟩ := bind_eq_ok.mp h
      cases h
      exact .computed (each_of_genItems items hvs) rfl (.list hcreate)
  | .binary _ op opSpan left right, _, _, _, h => by
      rw [genValue] at h
      obtain ⟨l, hl, h⟩ := bind_eq_ok.mp h
      obtain ⟨r, hr, h⟩ := bind_eq_ok.mp h
      split at h
      case isTrue hnum =>
        obtain ⟨block, hblock, h⟩ := bind_eq_ok.mp h
        cases h
        rw [← List.append_assoc]
        have hlr := (each_pair (R := fun hint => Compiles ctx (.temp hint))).mpr
          ⟨l, r, compiles_of_genValue left hl, compiles_of_genValue right hr, rfl⟩
        exact .computed (e := .binary _ op opSpan left right) hlr rfl
          (.binary opSpan left right hnum hblock)
      case isFalse => simp at h
  | .index _ object index, _, _, _, h => by
      rw [genValue] at h
      obtain ⟨o, ho, h⟩ := bind_eq_ok.mp h
      split at h
      case h_1 container hc =>
        obtain ⟨i, hi, h⟩ := bind_eq_ok.mp h
        obtain ⟨_, hkey, h⟩ := bind_eq_ok.mp h
        obtain ⟨block, hblock, h⟩ := bind_eq_ok.mp h
        cases h
        rw [← List.append_assoc]
        have hoi := (each_pair (R := fun hint => Compiles ctx (.temp hint))).mpr
          ⟨o, i, compiles_of_genValue object ho, compiles_of_genValue index hi, rfl⟩
        exact .computed (e := .index _ object index) hoi rfl
          (.index object index hc (checkKey_eq_ok.mp hkey) hblock)
      case h_2 =>
        split at h
        · obtain ⟨_, _, h⟩ := bind_eq_ok.mp h
          simp at h
        · simp at h
  | .cast _ _ value, _, _, _, h => by
      rw [genValue] at h
      obtain ⟨v, hv, h⟩ := bind_eq_ok.mp h
      cases h
      exact .cast _ _ (compiles_of_genValue value hv)
  | .assign .., _, _, _, h | .setIndex .., _, _, _, h | .call .., _, _, _, h
  | .action .., _, _, _, h => by simp [genValue] at h

theorem each_of_genItems {ctx : Context} :
    ∀ (items : List Expr) {n : Nat} {vs : Emitted (List Value)}, genItems ctx n items = .ok vs →
      Each (fun hint => Compiles ctx (.temp hint)) n (items.map fun item => ("__list", item)) vs
  | [], _, _, h => by
      cases h
      exact .nil _
  | e :: rest, _, _, h => by
      rw [genItems] at h
      obtain ⟨v, hv, h⟩ := bind_eq_ok.mp h
      obtain ⟨vs, hvs, h⟩ := bind_eq_ok.mp h
      cases h
      exact .cons (compiles_of_genValue e hv) (each_of_genItems rest hvs)

theorem each_of_genEntries {ctx : Context} :
    ∀ (entries : List (String × Expr)) {n : Nat} {em : Emitted (List (String × Value))},
      genEntries ctx n entries = .ok em →
      ∃ vs : Emitted (List Value), Each (fun hint => Compiles ctx (.temp hint)) n
          (entries.map fun entry => ("__dict", entry.2)) vs ∧
        em = ⟨keyed entries vs.result, vs.blocks, vs.next⟩
  | [], n, _, h => by
      cases h
      exact ⟨_, .nil n, rfl⟩
  | (key, e) :: rest, _, _, h => by
      rw [genEntries] at h
      obtain ⟨v, hv, h⟩ := bind_eq_ok.mp h
      obtain ⟨em, hem, h⟩ := bind_eq_ok.mp h
      obtain ⟨vs, hvs, rfl⟩ := each_of_genEntries rest hem
      cases h
      exact ⟨_, .cons (compiles_of_genValue e hv) hvs, rfl⟩

end

theorem genItems_of_each {ctx : Context} {n : Nat} {items : List Expr} {vs : Emitted (List Value)}
    (h : Each (fun hint n e v => genValue ctx (.temp hint) n e = .ok v) n
      (items.map fun item => ("__list", item)) vs) : genItems ctx n items = .ok vs := by
  induction items generalizing n vs with
  | nil =>
      cases h
      rfl
  | cons e rest ih =>
      obtain _ | ⟨head, tail⟩ := h
      simp only [genItems, head, ih tail, bind, Except.bind]

theorem genEntries_of_each {ctx : Context} {n : Nat} {entries : List (String × Expr)}
    {vs : Emitted (List Value)}
    (h : Each (fun hint n e v => genValue ctx (.temp hint) n e = .ok v) n
      (entries.map fun entry => ("__dict", entry.2)) vs) :
    genEntries ctx n entries = .ok ⟨keyed entries vs.result, vs.blocks, vs.next⟩ := by
  induction entries generalizing n vs with
  | nil =>
      cases h
      rfl
  | cons entry rest ih =>
      obtain _ | ⟨head, tail⟩ := h
      simp only [genEntries, head, ih tail, bind, Except.bind, keyed, List.map_cons,
        List.zip_cons_cons]

theorem genValue_computed {ctx : Context} {dest : Dest} {n : Nat} {e : Expr}
    {vs : Emitted (List Value)} {target : Item} {next : Nat} {type : ValueType}
    {blocks : List Codeblock} (finish : Finishes ctx.schema target e vs.result type blocks)
    (values : Each (fun hint n e v => genValue ctx (.temp hint) n e = .ok v) n (operands e) vs)
    (placed : place dest vs.next = (target, next)) :
    genValue ctx dest n e = .ok ⟨⟨type, target⟩, vs.blocks ++ blocks, next⟩ := by
  obtain ⟨result, before, last⟩ := vs
  cases finish with
  | dict created filled =>
      have hvs := genEntries_of_each values
      simp only [genValue, hvs, placed, created, filled, bind, Except.bind]
  | list created =>
      have hvs := genItems_of_each values
      simp only [genValue, hvs, placed, created, bind, Except.bind]
  | binary opSpan left right numbers computed =>
      obtain ⟨l, r, hl, hr, he⟩ := each_pair.mp values
      cases he
      simp only [genValue, hl, hr, numbers, placed, computed, and_self, if_true, bind, Except.bind,
        List.append_assoc]
  | index object index indexed key fetched =>
      obtain ⟨o, i, ho, hi, he⟩ := each_pair.mp values
      cases he
      simp only [genValue, ho, indexed, hi, checkKey_eq_ok.mpr key, placed, fetched, bind,
        Except.bind, List.append_assoc]

theorem genValue_eq_ok {ctx : Context} {dest : Dest} {n : Nat} {e : Expr} {v : Emitted Value} :
    genValue ctx dest n e = .ok v ↔ Compiles ctx dest n e v := by
  refine ⟨compiles_of_genValue e, fun h => ?_⟩
  induction h with
  | number | str | styledText | vector => rfl
  | name dest n span bound => simp only [genValue, bound]
  | computed values placed finish ih =>
      exact genValue_computed finish (ih.imp fun ⟨_, h⟩ => h) placed
  | cast span type inner hv => simp only [genValue, hv, bind, Except.bind]

def elementOperands (object index value : Expr) : List (String × Expr) :=
  [("__obj", object), ("__idx", index), ("__value", value)]

theorem genSetIndex_eq_ok {ctx : Context} {n : Nat} {object index value : Expr} {span : Span}
    {em : Emitted Unit} (h : genSetIndex ctx n object index value span = .ok em) :
    ∃ vs o i v container block,
      Each (fun hint => Compiles ctx (.temp hint)) n (elementOperands object index value) vs ∧
      vs.result = [o, i, v] ∧ containerOf? o.type = some container ∧
      i.type.base = container.key ∧ o.type.element.accepts v.type ∧
      setVar ctx.schema (setAction container) [o.item, i.item, v.item] span = .ok block ∧
      em = ⟨(), vs.blocks ++ [block], vs.next⟩ := by
  rw [genSetIndex] at h
  obtain ⟨o, ho, h⟩ := bind_eq_ok.mp h
  split at h
  case h_1 => simp at h
  case h_2 container hc =>
    obtain ⟨i, hi, h⟩ := bind_eq_ok.mp h
    obtain ⟨v, hv, h⟩ := bind_eq_ok.mp h
    obtain ⟨_, hkey, h⟩ := bind_eq_ok.mp h
    dsimp only at h
    split at h
    case isFalse => simp at h
    case isTrue haccepts =>
      obtain ⟨block, hblock, h⟩ := bind_eq_ok.mp h
      cases h
      rw [genValue_eq_ok] at ho hi hv
      refine ⟨_, _, _, _, container, block, .cons ho (.cons hi (.cons hv (.nil v.next))), rfl, hc,
        checkKey_eq_ok.mp hkey, haccepts, hblock, ?_⟩
      simp only [List.append_nil, List.append_assoc]

/-- What becomes of a call with the given parameters. Without any, arguments are refused. Else they
are handed over to be matched, and the call is completed from their items. -/
inductive Handed (ctx : Context) (callee : Callee) (span : Span) (n : Nat) (args : List Expr)
    (refusal : SemanticFault) (params : List Expectation)
    (complete : Emitted (List Item) → Result (Emitted Unit)) (call : Result (Emitted Unit)) : Prop
  | refused (none : params = []) (given : args ≠ []) (fails : call = fail refusal span)
  | matched (guard : params = [] → args = [])
      (goes : call = resolveArgs ctx callee span params n args >>= complete)

def appendBlock (ctx : Context) (kind : String) (action : Option String) (span : Span)
    (finish : Codeblock → Codeblock) (items : Emitted (List Item)) : Result (Emitted Unit) := do
  let block ← newBlock ctx.schema kind action items.result span
  .ok ⟨(), items.blocks ++ [finish block], items.next⟩

section

variable {ctx : Context} {callee : Callee} {span : Span} {n : Nat} {args : List Expr}
  {refusal : SemanticFault}

theorem handed_of_guard {α : Type} (known : List α) (f : α → Expectation)
    {complete : Emitted (List Item) → Result (Emitted Unit)} :
    Handed ctx callee span n args refusal (known.map f) complete
      (if known.isEmpty && !args.isEmpty then fail refusal span
        else resolveArgs ctx callee span (known.map f) n args >>= complete) := by
  split
  case isTrue hguard =>
    obtain ⟨hnone, hgiven⟩ := Bool.and_eq_true_iff.mp hguard
    exact .refused (by simpa using hnone) (by simpa using hgiven) rfl
  case isFalse hguard => exact .matched (by simpa using hguard) rfl

theorem Handed.of_ok {params : List Expectation} {kind : String} {action : Option String}
    {finish : Codeblock → Codeblock} {call : Result (Emitted Unit)} {em : Emitted Unit}
    (h : Handed ctx callee span n args refusal params (appendBlock ctx kind action span finish) call)
    (hok : call = .ok em) :
    ∃ items block, resolveArgs ctx callee span params n args = .ok items ∧
      newBlock ctx.schema kind action items.result span = .ok block ∧
      em = ⟨(), items.blocks ++ [finish block], items.next⟩ := by
  cases h with
  | refused _ _ fails => cases fails.symm.trans hok
  | matched _ goes =>
      obtain ⟨items, hargs, hdone⟩ := bind_eq_ok.mp (goes.symm.trans hok)
      obtain ⟨block, hblock, hdone⟩ := bind_eq_ok.mp hdone
      exact ⟨items, block, hargs, hblock, (Except.ok.inj hdone).symm⟩

end

theorem handed_genCall (ctx : Context) (n : Nat) (name : String) (args : List Expr) (span : Span) :
    (ctx.scope.signature? name = none ∧ ∃ e, genCall ctx n name args span = .error e) ∨
      ∃ signature, ctx.scope.signature? name = some signature ∧
        Handed ctx .function span n args (.functionTakesNone name)
          (signature.params.map .ofParam)
          (appendBlock ctx "call_func" none span (Codeblock.withData name))
          (genCall ctx n name args span) := by
  rw [genCall]
  cases ctx.scope.signature? name with
  | none => exact .inl ⟨rfl, _, rfl⟩
  | some signature => exact .inr ⟨signature, rfl, handed_of_guard ..⟩

theorem handed_genAction (ctx : Context) (n : Nat) (ref : ActionRef) (args : List Expr)
    (span : Span) :
    (((∃ e, ctx.schema.action ref.category ref.action = .error e) ∨
        ∃ e, ctx.schema.identifierOf ref.category = .error e) ∧
      ∃ e, genAction ctx n ref args span = .error e) ∨
    ∃ spec kind, ctx.schema.action ref.category ref.action = .ok spec ∧
      ctx.schema.identifierOf ref.category = .ok kind ∧
      Handed ctx .codeblock span n args (.actionTakesNone ref.action)
        (spec.arguments.map .ofArgument)
        (appendBlock ctx kind (some ref.action) span
          (Codeblock.withTarget (ref.target.map Target.wireName)))
        (genAction ctx n ref args span) := by
  rw [genAction]
  cases ctx.schema.action ref.category ref.action with
  | error e => exact .inl ⟨.inl ⟨e, rfl⟩, _, rfl⟩
  | ok spec =>
      cases ctx.schema.identifierOf ref.category with
      | error e => exact .inl ⟨.inr ⟨e, rfl⟩, _, rfl⟩
      | ok kind => exact .inr ⟨spec, kind, rfl, rfl, handed_of_guard ..⟩

section

variable {ctx : Context} {n : Nat} {args : List Expr} {span : Span} {em : Emitted Unit}

theorem genCall_eq_ok {name : String} (h : genCall ctx n name args span = .ok em) :
    ∃ signature items block, ctx.scope.signature? name = some signature ∧
      resolveArgs ctx .function span (signature.params.map Expectation.ofParam) n args =
        .ok items ∧
      newBlock ctx.schema "call_func" none items.result span = .ok block ∧
      em = ⟨(), items.blocks ++ [block.withData name], items.next⟩ := by
  rcases handed_genCall ctx n name args span with ⟨-, e, he⟩ | ⟨signature, hsignature, hhanded⟩
  · cases he.symm.trans h
  · obtain ⟨items, block, hdone⟩ := hhanded.of_ok h
    exact ⟨signature, items, block, hsignature, hdone⟩

theorem genAction_eq_ok {ref : ActionRef} (h : genAction ctx n ref args span = .ok em) :
    ∃ spec kind items block, ctx.schema.action ref.category ref.action = .ok spec ∧
      ctx.schema.identifierOf ref.category = .ok kind ∧
      resolveArgs ctx .codeblock span (spec.arguments.map Expectation.ofArgument) n args =
        .ok items ∧
      newBlock ctx.schema kind (some ref.action) items.result span = .ok block ∧
      em = ⟨(), items.blocks ++ [block.withTarget (ref.target.map Target.wireName)],
        items.next⟩ := by
  rcases handed_genAction ctx n ref args span with ⟨-, e, he⟩ | ⟨spec, kind, hspec, hkind, hhanded⟩
  · cases he.symm.trans h
  · obtain ⟨items, block, hdone⟩ := hhanded.of_ok h
    exact ⟨spec, kind, items, block, hspec, hkind, hdone⟩

end

section
variable {ctx : Context} {n : Nat} {em : Emitted Scope}

theorem genStmt_var {storage : Storage} {name : String} {type : ValueType} {value : Expr}
    {span : Span} :
    genStmt ctx n (.var ⟨storage, name, type, some value, span⟩) = .ok em ↔
      ∃ em', assignInto ⟨ctx.schema, ctx.scope.define name type storage⟩ name storage type n value
          span = .ok em' ∧
        em = ⟨ctx.scope.define name type storage, em'.blocks, em'.next⟩ := by
  simp only [genStmt, bind_eq_ok, Except.ok.injEq, @eq_comm _ em]

theorem genStmt_assign {span : Span} {name : String} {value : Expr} :
    genStmt ctx n (.expr (.assign span name value)) = .ok em ↔
      ∃ b em', ctx.scope.binding? name = some b ∧
        assignInto ctx name b.storage b.type n value span = .ok em' ∧
        em = ⟨ctx.scope, em'.blocks, em'.next⟩ := by
  rw [genStmt]
  cases hb : ctx.scope.binding? name with
  | none => simp [bind_eq_ok]
  | some b => simp [bind_eq_ok, @eq_comm _ em]

theorem genStmt_setIndex {span : Span} {object index value : Expr} :
    genStmt ctx n (.expr (.setIndex span object index value)) = .ok em ↔
      ∃ em', genSetIndex ctx n object index value span = .ok em' ∧
        em = ⟨ctx.scope, em'.blocks, em'.next⟩ := by
  simp only [genStmt, bind_eq_ok, Except.ok.injEq, @eq_comm _ em]

end

end DiamondScript.Codegen
