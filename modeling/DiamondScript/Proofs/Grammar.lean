import DiamondScript.Language.Expr
import DiamondScript.Language.Token

namespace DiamondScript.Grammar

section

variable {α : Type}

/-- Phrases with a comma between any two of them; one more comma may follow the last. -/
inductive Listed (R : List Token → α → Prop) : List Token → List α → Prop
  | nil : Listed R [] []
  | last {ts : List Token} {a : α} (one : R ts a) : Listed R ts [a]
  | more {ts us : List Token} {a : α} {as : List α} (one : R ts a) (rest : Listed R us as) :
      Listed R (ts ++ .mark .comma :: us) (a :: as)

/-- At least one phrase, with a comma between any two of them and none behind the last. -/
inductive Joined (R : List Token → α → Prop) : List Token → List α → Prop
  | last {ts : List Token} {a : α} (one : R ts a) : Joined R ts [a]
  | more {ts us : List Token} {a : α} {as : List α} (one : R ts a) (rest : Joined R us as) :
      Joined R (ts ++ .mark .comma :: us) (a :: as)

end

inductive Name : List Token → String → Prop
  | plain (name : String) : Name [.ident name] name
  | quoted (name : String) : Name [.varName name] name

inductive SignedNumber : List Token → Binary64 → Prop
  | plain (x : Binary64) : SignedNumber [.number x] x
  | negative (x : Binary64) : SignedNumber [.mark .minus, .number x] x.neg

inductive TypeTerm : List Token → ValueType → Prop
  | simple (base : BaseType) : TypeTerm [.type base] (.declared base [])
  | applied (base : BaseType) {ts : List Token} {params : List ValueType}
      (inner : Joined TypeTerm ts params) :
      TypeTerm (.type base :: .mark .less :: (ts ++ [.mark .greater])) (.declared base params)

inductive Action : List Token → ActionRef → Prop
  | plain (action category : String) :
      Action [.keyword .codeblock, .string action, .mark .less, .string category, .mark .greater]
        ⟨action, category, none⟩
  | targeted (target : Target) (action category : String) :
      Action [.target target, .keyword .codeblock, .string action, .mark .less, .string category,
        .mark .greater] ⟨action, category, some target⟩

/-- Which side operators of one strength group to. -/
inductive Side where
  | left
  | right
  deriving DecidableEq, Repr

inductive Operator : Token → BinaryOp → Nat → Side → Prop
  | add : Operator (.mark .plus) .add 10 .left
  | sub : Operator (.mark .minus) .sub 10 .left
  | mul : Operator (.mark .star) .mul 20 .left
  | div : Operator (.mark .slash) .div 20 .left
  | pow : Operator (.mark .caret) .pow 30 .right

mutual

/-- An expression. Places are left open in all rules. -/
inductive Expression : List Token → Expr → Prop
  | value {ts : List Token} {e : Expr} (inner : Binary 0 ts e) : Expression ts e
  | assign {ts us : List Token} {name : String} {value : Expr} (place span : Span)
      (target : Postfix ts (.variable place name)) (assigned : Expression us value) :
      Expression (ts ++ .mark .equals :: us) (.assign span name value)
  | setIndex {ts us : List Token} {object index value : Expr} (place span : Span)
      (target : Postfix ts (.index place object index)) (assigned : Expression us value) :
      Expression (ts ++ .mark .equals :: us) (.setIndex span object index value)

/-- Operands joined by operators of at least the given strength. The operand on the side that an
operator groups to may hold operators of the same strength, the other one only stronger ones. -/
inductive Binary : Nat → List Token → Expr → Prop
  | operand (least : Nat) {ts : List Token} {e : Expr} (inner : Postfix ts e) : Binary least ts e
  | leftward {least strength : Nat} {t : Token} {op : BinaryOp} {ts us : List Token}
      {left right : Expr} (span opSpan : Span) (sign : Operator t op strength .left)
      (strong : least ≤ strength) (first : Binary strength ts left)
      (second : Binary (strength + 1) us right) :
      Binary least (ts ++ t :: us) (.binary span op opSpan left right)
  | rightward {least strength : Nat} {t : Token} {op : BinaryOp} {ts us : List Token}
      {left right : Expr} (span opSpan : Span) (sign : Operator t op strength .right)
      (strong : least ≤ strength) (first : Binary (strength + 1) ts left)
      (second : Binary strength us right) :
      Binary least (ts ++ t :: us) (.binary span op opSpan left right)

inductive Postfix : List Token → Expr → Prop
  | operand {ts : List Token} {e : Expr} (inner : Primary ts e) : Postfix ts e
  | call {ts us : List Token} {name : String} {args : List Expr} (place span : Span)
      (callee : Primary ts (.variable place name)) (given : Listed Expression us args) :
      Postfix (ts ++ .mark .leftParen :: (us ++ [.mark .rightParen])) (.call span name args)
  | bareAction {ts : List Token} {ref : ActionRef} (span : Span) (native : Action ts ref) :
      Postfix ts (.action span ref [])
  | action {ts us : List Token} {ref : ActionRef} {args : List Expr} (span : Span)
      (native : Action ts ref) (given : Listed Expression us args) :
      Postfix (ts ++ .mark .leftParen :: (us ++ [.mark .rightParen])) (.action span ref args)
  | index {ts us : List Token} {object index : Expr} (span : Span) (indexed : Postfix ts object)
      (inner : Expression us index) :
      Postfix (ts ++ .mark .leftBracket :: (us ++ [.mark .rightBracket]))
        (.index span object index)
  | key {ts : List Token} {object : Expr} (span place : Span) (key : String)
      (indexed : Postfix ts object) :
      Postfix (ts ++ [.mark .dot, .ident key]) (.index span object (.str place key))

inductive Primary : List Token → Expr → Prop
  | name {ts : List Token} {name : String} (span : Span) (written : Name ts name) :
      Primary ts (.variable span name)
  | number {ts : List Token} {x : Binary64} (span : Span) (written : SignedNumber ts x) :
      Primary ts (.number span x)
  | str (span : Span) (s : String) : Primary [.string s] (.str span s)
  | styledText (span : Span) (s : String) : Primary [.styledText s] (.styledText span s)
  | vector {ts us vs : List Token} {x y z : Binary64} (span : Span) (first : SignedNumber ts x)
      (second : SignedNumber us y) (third : SignedNumber vs z) :
      Primary (.mark .less :: (ts ++ .mark .comma :: (us ++ .mark .comma ::
        (vs ++ [.mark .greater])))) (.vector span x y z)
  | cast {ts us : List Token} {type : ValueType} {value : Expr} (span : Span)
      (wanted : TypeTerm ts type) (inner : Binary 0 us value) :
      Primary (.mark .leftParen :: (ts ++ .mark .rightParen :: us)) (.cast span type value)
  | group {ts : List Token} {e : Expr} (inner : Expression ts e) :
      Primary (.mark .leftParen :: (ts ++ [.mark .rightParen])) e
  | emptyDict (span : Span) : Primary [.mark .leftBrace, .mark .rightBrace] (.dict span [])
  | dict {ts : List Token} {entries : List (String × Expr)} (span : Span)
      (inner : Joined Entry ts entries) :
      Primary (.mark .leftBrace :: (ts ++ [.mark .rightBrace])) (.dict span entries)
  | emptyList (span : Span) : Primary [.mark .leftBracket, .mark .rightBracket] (.list span [])
  | list {ts : List Token} {items : List Expr} (span : Span) (inner : Joined Expression ts items) :
      Primary (.mark .leftBracket :: (ts ++ [.mark .rightBracket])) (.list span items)

inductive Entry : List Token → String × Expr → Prop
  | mk {ts : List Token} {value : Expr} (key : String) (inner : Expression ts value) :
      Entry (.string key :: .mark .colon :: ts) (key, value)

end

def ifPresent (present : Bool) (t : Token) : List Token := if present then [t] else []

inductive Parameter : List Token → Param → Prop
  | mk {ts : List Token} {type : ValueType} (name : String) (optional plural output : Bool)
      (description : Option String) (declared : TypeTerm ts type) :
      Parameter (ifPresent output (.keyword .out) ++ .ident name :: .mark .colon ::
        (ts ++ (ifPresent plural (.mark .ellipsis) ++
          (ifPresent optional (.mark .question) ++ (description.map .string).toList))))
        ⟨name, type, optional, plural, output, description⟩

inductive Kept : Token → Storage → Prop
  | var : Kept (.keyword .var) .var
  | local : Kept (.keyword .local) .local
  | game : Kept (.keyword .game) .game
  | save : Kept (.keyword .save) .save

inductive Initial : List Token → Option Expr → Prop
  | none : Initial [] none
  | some {ts : List Token} {e : Expr} (inner : Expression ts e) :
      Initial (.mark .equals :: ts) (some e)

inductive Variable : List Token → VarDef → Prop
  | mk {t : Token} {storage : Storage} {ns ts vs : List Token} {name : String} {type : ValueType}
      {value : Option Expr} (span : Span) (kept : Kept t storage) (named : Name ns name)
      (declared : TypeTerm ts type) (initial : Initial vs value) :
      Variable (t :: (ns ++ .mark .colon :: (ts ++ (vs ++ [.mark .semicolon]))))
        ⟨storage, name, type, value, span⟩

inductive Statement : List Token → Stmt → Prop
  | var {ts : List Token} {d : VarDef} (defined : Variable ts d) : Statement ts (.var d)
  | expr {ts : List Token} {e : Expr} (inner : Expression ts e) (effect : e.isStatement) :
      Statement (ts ++ [.mark .semicolon]) (.expr e)

inductive Body : List Token → List Stmt → Prop
  | nil : Body [] []
  | cons {ts us : List Token} {stmt : Stmt} {rest : List Stmt} (first : Statement ts stmt)
      (later : Body us rest) : Body (ts ++ us) (stmt :: rest)

inductive Function : List Token → FuncDef → Prop
  | declared {ts : List Token} {params : List Param} (name : String) (span : Span)
      (taken : Listed Parameter ts params) :
      Function (.keyword .func :: .ident name :: .mark .leftParen ::
        (ts ++ [.mark .rightParen, .mark .semicolon])) ⟨name, params, none, span⟩
  | defined {ts us : List Token} {params : List Param} {body : List Stmt} (name : String)
      (span : Span) (taken : Listed Parameter ts params) (inner : Body us body) :
      Function (.keyword .func :: .ident name :: .mark .leftParen ::
        (ts ++ .mark .rightParen :: .mark .leftBrace :: (us ++ [.mark .rightBrace])))
        ⟨name, params, some body, span⟩

/-- The definitions of a source. Variables outside of functions outlive a line and have no initial
value. -/
inductive Program : List Token → List Definition → Prop
  | nil : Program [] []
  | var {ts us : List Token} {d : VarDef} {rest : List Definition} (defined : Variable ts d)
      (global : d.storage = .game ∨ d.storage = .save) (unset : d.value = none)
      (later : Program us rest) : Program (ts ++ us) (.var d :: rest)
  | func {ts us : List Token} {d : FuncDef} {rest : List Definition} (defined : Function ts d)
      (later : Program us rest) : Program (ts ++ us) (.func d :: rest)

end DiamondScript.Grammar
