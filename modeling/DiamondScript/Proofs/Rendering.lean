import DiamondScript.Proofs.Bare
import DiamondScript.Proofs.Grammar

namespace DiamondScript

namespace ValueType

mutual

/-- What can be written of a type: no entries are recorded, at any depth. -/
def written : ValueType → ValueType
  | .declared base params => .declared base (writtenAll params)
  | .literal base params _ => .declared base (writtenAll params)

def writtenAll : List ValueType → List ValueType
  | [] => []
  | t :: rest => t.written :: writtenAll rest

end

end ValueType

namespace Expr

mutual

def written : Expr → Expr
  | .number _ x => .number .nowhere x
  | .str _ s => .str .nowhere s
  | .styledText _ s => .styledText .nowhere s
  | .vector _ x y z => .vector .nowhere x y z
  | .variable _ name => .variable .nowhere name
  | .dict _ entries => .dict .nowhere (writtenEntries entries)
  | .list _ items => .list .nowhere (writtenItems items)
  | .binary _ op _ left right => .binary .nowhere op .nowhere left.written right.written
  | .index _ object key => .index .nowhere object.written key.written
  | .setIndex _ object key value => .setIndex .nowhere object.written key.written value.written
  | .assign _ name value => .assign .nowhere name value.written
  | .call _ name args => .call .nowhere name (writtenItems args)
  | .action _ ref args => .action .nowhere ref (writtenItems args)
  | .cast _ type value => .cast .nowhere type.written value.written

def writtenItems : List Expr → List Expr
  | [] => []
  | e :: rest => e.written :: writtenItems rest

def writtenEntries : List (String × Expr) → List (String × Expr)
  | [] => []
  | (key, e) :: rest => (key, e.written) :: writtenEntries rest

end

mutual

def types : Expr → List ValueType
  | .number .. | .str .. | .styledText .. | .vector .. | .variable .. => []
  | .dict _ entries => typesEntries entries
  | .list _ items => typesItems items
  | .binary _ _ _ left right => left.types ++ right.types
  | .index _ object key => object.types ++ key.types
  | .setIndex _ object key value => object.types ++ (key.types ++ value.types)
  | .assign _ _ value => value.types
  | .call _ _ args => typesItems args
  | .action _ _ args => typesItems args
  | .cast _ type value => type :: value.types

def typesItems : List Expr → List ValueType
  | [] => []
  | e :: rest => e.types ++ typesItems rest

def typesEntries : List (String × Expr) → List ValueType
  | [] => []
  | (_, e) :: rest => e.types ++ typesEntries rest

end

mutual

theorem written_eq_bare : ∀ e : Expr, (∀ t ∈ e.types, t.written = t) → e.written = e.bare
  | .number .., _ | .str .., _ | .styledText .., _ | .vector .., _ | .variable .., _ => by
      simp only [written, bare]
  | .dict _ entries, h => by
      rw [written, bare, writtenEntries_eq_bare entries h]
  | .list _ items, h => by
      rw [written, bare, writtenItems_eq_bare items h]
  | .binary _ _ _ left right, h => by
      rw [types, List.forall_mem_append] at h
      rw [written, bare, written_eq_bare left h.1, written_eq_bare right h.2]
  | .index _ object key, h => by
      rw [types, List.forall_mem_append] at h
      rw [written, bare, written_eq_bare object h.1, written_eq_bare key h.2]
  | .setIndex _ object key value, h => by
      rw [types, List.forall_mem_append, List.forall_mem_append] at h
      rw [written, bare, written_eq_bare object h.1, written_eq_bare key h.2.1,
        written_eq_bare value h.2.2]
  | .assign _ _ value, h => by
      rw [written, bare, written_eq_bare value h]
  | .call _ _ args, h | .action _ _ args, h => by
      rw [written, bare, writtenItems_eq_bare args h]
  | .cast _ type value, h => by
      rw [types, List.forall_mem_cons] at h
      rw [written, bare, h.1, written_eq_bare value h.2]

theorem writtenItems_eq_bare : ∀ items : List Expr,
    (∀ t ∈ typesItems items, t.written = t) → writtenItems items = bareItems items
  | [], _ => rfl
  | e :: rest, h => by
      rw [typesItems, List.forall_mem_append] at h
      rw [writtenItems, bareItems, written_eq_bare e h.1, writtenItems_eq_bare rest h.2]

theorem writtenEntries_eq_bare : ∀ entries : List (String × Expr),
    (∀ t ∈ typesEntries entries, t.written = t) → writtenEntries entries = bareEntries entries
  | [], _ => rfl
  | (key, e) :: rest, h => by
      rw [typesEntries, List.forall_mem_append] at h
      rw [writtenEntries, bareEntries, written_eq_bare e h.1, writtenEntries_eq_bare rest h.2]

end

end Expr

def VarDef.written (d : VarDef) : VarDef :=
  { d with type := d.type.written, value := d.value.map Expr.written, span := .nowhere }

def VarDef.types (d : VarDef) : List ValueType := d.type :: (d.value.map Expr.types).getD []

theorem VarDef.written_eq_bare {d : VarDef} (h : ∀ t ∈ d.types, t.written = t) :
    d.written = d.bare := by
  obtain ⟨storage, name, type, value, span⟩ := d
  rw [types, List.forall_mem_cons] at h
  obtain ⟨htype, hvalue⟩ := h
  rw [written, bare, htype]
  cases value with
  | none => rfl
  | some e => rw [Option.map_some, Option.map_some, Expr.written_eq_bare e hvalue]

def Param.written (p : Param) : Param := { p with type := p.type.written }

def Stmt.written : Stmt → Stmt
  | .var d => .var d.written
  | .expr e => .expr e.written

def Stmt.types : Stmt → List ValueType
  | .var d => d.types
  | .expr e => e.types

theorem Stmt.written_eq_bare : ∀ {s : Stmt}, (∀ t ∈ s.types, t.written = t) → s.written = s.bare
  | .var _, h => congrArg Stmt.var (VarDef.written_eq_bare h)
  | .expr e, h => congrArg Stmt.expr (Expr.written_eq_bare e h)

def FuncDef.written (d : FuncDef) : FuncDef :=
  { d with params := d.params.map Param.written, body := d.body.map (List.map Stmt.written),
           span := .nowhere }

def FuncDef.types (d : FuncDef) : List ValueType :=
  d.params.map Param.type ++ (d.body.getD []).flatMap Stmt.types

theorem FuncDef.written_eq_bare {d : FuncDef} (h : ∀ t ∈ d.types, t.written = t) :
    d.written = d.bare := by
  obtain ⟨name, params, body, span⟩ := d
  rw [types, List.forall_mem_append, List.forall_mem_map] at h
  obtain ⟨hparams, hbody⟩ := h
  have hp : params.map Param.written = params := by
    have hid : ∀ p ∈ params, p.written = id p := by
      intro p hmem
      rw [Param.written, hparams p hmem, id]
    rw [List.map_congr_left hid, List.map_id]
  rw [written, bare, hp]
  cases body with
  | none => rfl
  | some stmts =>
      have hs : stmts.map Stmt.written = stmts.map Stmt.bare := by
        refine List.map_congr_left fun s hmem => Stmt.written_eq_bare fun t ht => ?_
        exact hbody t (List.mem_flatMap.mpr ⟨s, hmem, ht⟩)
      rw [Option.map_some, hs]
      rfl

def Definition.written : Definition → Definition
  | .var d => .var d.written
  | .func d => .func d.written

def Definition.types : Definition → List ValueType
  | .var d => d.types
  | .func d => d.types

theorem Definition.written_eq_bare : ∀ {d : Definition}, (∀ t ∈ d.types, t.written = t) →
    d.written = d.bare
  | .var _, h => congrArg Definition.var (VarDef.written_eq_bare h)
  | .func _, h => congrArg Definition.func (FuncDef.written_eq_bare h)

/-- What a rendering is free in: which names are quoted, and whether an expression that is no part
of another one is grouped as well. -/
structure Style where
  quoted : String → Bool
  grouped : Bool

namespace Style

def name (style : Style) (n : String) : Token :=
  if style.quoted n then .varName n else .ident n

def group (ts : List Token) : List Token := .mark .leftParen :: (ts ++ [.mark .rightParen])

def outer (style : Style) (ts : List Token) : List Token :=
  if style.grouped then group ts else ts

end Style

open Style (group)

open Grammar (ifPresent)

namespace ValueType

def applied (params : List ValueType) (inner : List Token) : List Token :=
  if params.isEmpty then [] else .mark .less :: (inner ++ [.mark .greater])

mutual

def tokens : ValueType → List Token
  | .declared base params => .type base :: applied params (listTokens params)
  | .literal base params _ => .type base :: applied params (listTokens params)

def listTokens : List ValueType → List Token
  | [] => []
  | [t] => t.tokens
  | t :: u :: rest => t.tokens ++ .mark .comma :: listTokens (u :: rest)

end

end ValueType

/-- A number; the sign of a negative one is a token of its own. -/
def Binary64.tokens (x : Binary64) : List Token :=
  if x.negative then [.mark .minus, .number x.neg] else [.number x]

theorem Binary64.neg_neg (x : Binary64) : x.neg.neg = x := by
  simp [neg]

def BinaryOp.token : BinaryOp → Token
  | .add => .mark .plus
  | .sub => .mark .minus
  | .mul => .mark .star
  | .div => .mark .slash
  | .pow => .mark .caret

def ActionRef.tokens (ref : ActionRef) : List Token :=
  (ref.target.map Token.target).toList ++ [.keyword .codeblock, .string ref.action, .mark .less,
    .string ref.category, .mark .greater]

namespace Expr

mutual

/-- An expression with parentheses around each of its parts. -/
def tokens (style : Style) : Expr → List Token
  | .number _ x => x.tokens
  | .str _ s => [.string s]
  | .styledText _ s => [.styledText s]
  | .vector _ x y z =>
    .mark .less :: (x.tokens ++ .mark .comma :: (y.tokens ++ .mark .comma ::
      (z.tokens ++ [.mark .greater])))
  | .variable _ name => [style.name name]
  | .dict _ entries => .mark .leftBrace :: (entryTokens style entries ++ [.mark .rightBrace])
  | .list _ items => .mark .leftBracket :: (itemTokens style items ++ [.mark .rightBracket])
  | .binary _ op _ left right => group (left.tokens style) ++ op.token :: group (right.tokens style)
  | .index _ object key =>
    group (object.tokens style) ++ .mark .leftBracket ::
      (group (key.tokens style) ++ [.mark .rightBracket])
  | .setIndex _ object key value =>
    group (object.tokens style) ++ .mark .leftBracket ::
      (group (key.tokens style) ++ .mark .rightBracket :: .mark .equals ::
        group (value.tokens style))
  | .assign _ name value => style.name name :: .mark .equals :: group (value.tokens style)
  | .call _ name args => style.name name :: group (itemTokens style args)
  | .action _ ref args => ref.tokens ++ group (itemTokens style args)
  | .cast _ type value => group type.tokens ++ group (value.tokens style)

def itemTokens (style : Style) : List Expr → List Token
  | [] => []
  | [e] => group (e.tokens style)
  | e :: f :: rest => group (e.tokens style) ++ .mark .comma :: itemTokens style (f :: rest)

def entryTokens (style : Style) : List (String × Expr) → List Token
  | [] => []
  | [(key, e)] => .string key :: .mark .colon :: group (e.tokens style)
  | (key, e) :: f :: rest =>
    .string key :: .mark .colon :: (group (e.tokens style) ++ .mark .comma ::
      entryTokens style (f :: rest))

end

theorem length_tokens_ne_zero (style : Style) (e : Expr) : (e.tokens style).length ≠ 0 := by
  have hnumber (x : Binary64) : x.tokens.length ≠ 0 := by
    rw [Binary64.tokens]
    split <;> simp
  cases e with
  | number span x => exact hnumber x
  | _ => simp [tokens, group, ActionRef.tokens]

end Expr

def Style.initial (style : Style) : Option Expr → List Token
  | none => []
  | some e => .mark .equals :: style.outer (e.tokens style)

def Storage.token : Storage → Token
  | .var => .keyword .var
  | .local => .keyword .local
  | .game => .keyword .game
  | .save => .keyword .save
  | .line => .ident "line"

def VarDef.tokens (style : Style) (d : VarDef) : List Token :=
  d.storage.token :: style.name d.name :: .mark .colon ::
    (d.type.tokens ++ (style.initial d.value ++ [.mark .semicolon]))

def Param.tokens (p : Param) : List Token :=
  ifPresent p.output (.keyword .out) ++ .ident p.name :: .mark .colon :: (p.type.tokens ++
    (ifPresent p.plural (.mark .ellipsis) ++ (ifPresent p.optional (.mark .question) ++
      (p.description.map Token.string).toList)))

def Param.listTokens : List Param → List Token
  | [] => []
  | [p] => p.tokens
  | p :: rest => p.tokens ++ .mark .comma :: listTokens rest

def Stmt.tokens (style : Style) : Stmt → List Token
  | .var d => d.tokens style
  | .expr e => style.outer (e.tokens style) ++ [.mark .semicolon]

def FuncDef.tokens (style : Style) (d : FuncDef) : List Token :=
  .keyword .func :: .ident d.name :: (group (Param.listTokens d.params) ++
    match d.body with
    | none => [.mark .semicolon]
    | some body => .mark .leftBrace :: (body.flatMap (Stmt.tokens style) ++ [.mark .rightBrace]))

def Definition.tokens (style : Style) : Definition → List Token
  | .var d => d.tokens style
  | .func d => d.tokens style

def Stmt.InSource : Stmt → Prop
  | .var d => d.storage ≠ .line
  | .expr e => e.isStatement

/-- Whether the definition has a form that definitions are written in: a variable outside of
functions outlives a line and has no initial value. -/
def Definition.InSource : Definition → Prop
  | .var d => (d.storage = .game ∨ d.storage = .save) ∧ d.value = none
  | .func d => ∀ s ∈ d.body.getD [], s.InSource

instance : DecidablePred Stmt.InSource
  | .var d => inferInstanceAs (Decidable (d.storage ≠ .line))
  | .expr e => inferInstanceAs (Decidable (e.isStatement = true))

end DiamondScript
