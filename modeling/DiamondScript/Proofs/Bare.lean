import DiamondScript.Language.Parser
import DiamondScript.Proofs.Outcome

namespace DiamondScript

abbrev Span.nowhere : Span := ⟨0, 0⟩

namespace Expr

mutual

def bare : Expr → Expr
  | .number _ x => .number .nowhere x
  | .str _ s => .str .nowhere s
  | .styledText _ s => .styledText .nowhere s
  | .vector _ x y z => .vector .nowhere x y z
  | .variable _ name => .variable .nowhere name
  | .dict _ entries => .dict .nowhere (bareEntries entries)
  | .list _ items => .list .nowhere (bareItems items)
  | .binary _ op _ left right => .binary .nowhere op .nowhere left.bare right.bare
  | .index _ object key => .index .nowhere object.bare key.bare
  | .setIndex _ object key value => .setIndex .nowhere object.bare key.bare value.bare
  | .assign _ name value => .assign .nowhere name value.bare
  | .call _ name args => .call .nowhere name (bareItems args)
  | .action _ ref args => .action .nowhere ref (bareItems args)
  | .cast _ type value => .cast .nowhere type value.bare

def bareItems : List Expr → List Expr
  | [] => []
  | e :: rest => e.bare :: bareItems rest

def bareEntries : List (String × Expr) → List (String × Expr)
  | [] => []
  | (key, e) :: rest => (key, e.bare) :: bareEntries rest

end

@[simp] theorem span_bare (e : Expr) : e.bare.span = .nowhere := by
  cases e <;> rfl

@[simp] theorem bare_moveTo (e : Expr) (span : Span) :
    (e.moveTo span).bare = e.bare.moveTo .nowhere := by
  cases e <;> rfl

@[simp] theorem isStatement_bare (e : Expr) : e.bare.isStatement = e.isStatement := by
  cases e <;> rfl

end Expr

def VarDef.bare (d : VarDef) : VarDef :=
  { d with value := d.value.map Expr.bare, span := .nowhere }

def Stmt.bare : Stmt → Stmt
  | .var d => .var d.bare
  | .expr e => .expr e.bare

def FuncDef.bare (d : FuncDef) : FuncDef :=
  { d with body := d.body.map (List.map Stmt.bare), span := .nowhere }

def Definition.bare : Definition → Definition
  | .var d => .var d.bare
  | .func d => .func d.bare

def Lexeme.bare (l : Lexeme) : Lexeme := ⟨l.token, .nowhere⟩

def Constant.bare : Constant → Constant
  | .expr e => .expr e.bare
  | .action ref => .action ref

def Operand.bare : Operand → Operand
  | .expr e => .expr e.bare
  | .action ref _ => .action ref .nowhere

abbrev Constants.bare (constants : Constants) : Constants :=
  constants.map fun c => (c.1, c.2.bare)

theorem lookup_bare (constants : Constants) (name : String) :
    constants.bare.lookup name = (constants.lookup name).map Constant.bare := by
  induction constants with
  | nil => rfl
  | cons c rest ih =>
      rw [Constants.bare, List.map_cons, List.lookup_cons, List.lookup_cons]
      split
      · rfl
      · exact ih

namespace Cursor

def bare (c : Cursor) : Cursor := ⟨0, c.rest.map Lexeme.bare⟩

variable (c : Cursor)

@[simp] theorem token_bare : c.bare.token = c.token := by
  obtain ⟨_, _ | ⟨l, rest⟩⟩ := c <;> rfl

@[simp] theorem following_bare : c.bare.following = c.following := by
  obtain ⟨_, _ | ⟨l, _ | ⟨next, rest⟩⟩⟩ := c <;> rfl

@[simp] theorem span_bare : c.bare.span = .nowhere := by
  obtain ⟨_, _ | ⟨l, rest⟩⟩ := c <;> rfl

theorem advance_bare : c.bare.advance = c.advance.bare := by
  obtain ⟨_, _ | ⟨l, _ | ⟨next, rest⟩⟩⟩ := c <;> rfl

end Cursor

namespace Parser

/-- A parser of bare tokens does what another one does on the tokens themselves, up to places:
its results are given by `f`, and it fails with the same faults. -/
def Follows {α β : Type} (f : α → β) (p : Parse α) (q : Parse β) : Prop :=
  ∀ c, Alike (fun e e' => e.fault = e'.fault) (fun r r' => r' = (f r.1, r.2.bare)) (p c) (q c.bare)

section

variable {α β γ δ : Type}

theorem Follows.bind {f : α → β} {p : Parse α} {q : Parse β} (h : Follows f p q) {g : γ → δ}
    {k : α → Parse γ} {k' : β → Parse δ} (hk : ∀ a, Follows g (k a) (k' (f a))) :
    Follows g (p >>= k) (q >>= k') := by
  intro c
  refine Alike.bind (h c) ?_
  rintro ⟨a, d⟩ _ rfl
  exact hk a d

theorem follows_pure (f : α → β) (a : α) : Follows f (pure a) (pure (f a)) :=
  fun _ => .ok rfl

theorem follows_failAt (f : α → β) (fault : ParseFault) (span span' : Span) :
    Follows f (failAt fault span) (failAt fault span') :=
  fun _ => .error rfl

theorem follows_get : Follows Cursor.bare get get := fun _ => .ok rfl

end

theorem follows_peek : Follows id peek peek := by
  intro c
  refine .ok ?_
  simp

theorem follows_spanHere : Follows (fun _ => Span.nowhere) spanHere spanHere := by
  intro c
  refine .ok ?_
  simp

theorem follows_lastEnd : Follows (fun _ => 0) lastEnd lastEnd := fun _ => .ok rfl

theorem follows_advance : Follows id advance advance := by
  intro c
  refine .ok ?_
  rw [← Cursor.advance_bare]

theorem follows_failHere {α β : Type} (f : α → β) (what : String) :
    Follows f (failHere what) (failHere what) := by
  intro c
  refine .error ?_
  simp

theorem follows_exhausted {α β : Type} (f : α → β) : Follows f exhausted exhausted :=
  follows_spanHere.bind fun _ => follows_failAt _ _ _ _

theorem follows_eat (token : Token) : Follows id (eat token) (eat token) := by
  refine follows_peek.bind fun t => ?_
  by_cases ht : t = token
  · simp only [id, ht, if_true]
    exact follows_advance.bind fun _ => follows_pure id true
  · simp only [id, ht, if_false]
    exact follows_pure id false

theorem follows_expect (token : Token) (what : String) :
    Follows (fun _ => Span.nowhere) (expect token what) (expect token what) := by
  refine follows_get.bind fun c => ?_
  rw [Cursor.token_bare]
  split
  · rw [Cursor.span_bare]
    exact follows_advance.bind fun _ => follows_pure _ c.span
  · exact follows_failHere _ what

theorem follows_expectMark (m : Mark) (what : String) :
    Follows (fun _ => Span.nowhere) (expectMark m what) (expectMark m what) :=
  follows_expect _ what

theorem follows_ending {α β : Type} (g : α → β) {f : Nat → α} {f' : Nat → β}
    (h : ∀ stop, g (f stop) = f' 0) :
    Follows g (do return f (← lastEnd)) (do return f' (← lastEnd)) := by
  refine follows_lastEnd.bind fun stop => ?_
  rw [← h stop]
  exact follows_pure g (f stop)

theorem follows_close {α β : Type} (g : α → β) (m : Mark) (what : String) {f : Nat → α}
    {f' : Nat → β} (h : ∀ stop, g (f stop) = f' 0) :
    Follows g
      (do
        let _ ← expectMark m what
        return f (← lastEnd))
      (do
        let _ ← expectMark m what
        return f' (← lastEnd)) :=
  (follows_expectMark m what).bind fun _ => follows_ending g h

theorem follows_expectIdent (what : String) :
    Follows (fun r => (r.1, Span.nowhere)) (expectIdent what) (expectIdent what) := by
  refine follows_get.bind fun c => ?_
  rw [Cursor.token_bare, Cursor.span_bare]
  cases c.token with
  | ident name => exact follows_advance.bind fun _ => follows_pure _ (name, c.span)
  | _ => exact follows_failHere _ what

theorem follows_expectString (what : String) :
    Follows id (expectString what) (expectString what) := by
  refine follows_peek.bind fun t => ?_
  cases t with
  | string s => exact follows_advance.bind fun _ => follows_pure id s
  | _ => exact follows_failHere _ what

theorem follows_expectVarName : Follows id expectVarName expectVarName := by
  refine follows_peek.bind fun t => ?_
  cases t with
  | ident name | varName name => exact follows_advance.bind fun _ => follows_pure id name
  | _ => exact follows_failHere _ _

theorem follows_expectSignedNumber (what : String) :
    Follows id (expectSignedNumber what) (expectSignedNumber what) := by
  refine (follows_eat _).bind fun negative => follows_peek.bind fun t => ?_
  cases t with
  | number x => exact follows_advance.bind fun _ => follows_pure id _
  | _ => exact follows_failHere _ what

mutual

theorem follows_parseType : ∀ n, Follows id (parseType n) (parseType n)
  | 0 => follows_exhausted id
  | n + 1 => by
      refine follows_peek.bind fun t => ?_
      cases t with
      | type base =>
          refine follows_advance.bind fun _ => (follows_eat _).bind fun opened => ?_
          cases opened with
          | false => exact follows_pure id _
          | true =>
              exact (follows_parseTypeParams n).bind fun params =>
                (follows_expectMark _ _).bind fun _ => follows_pure id _
      | _ => exact follows_failHere _ _

theorem follows_parseTypeParams : ∀ n, Follows id (parseTypeParams n) (parseTypeParams n)
  | 0 => follows_exhausted id
  | n + 1 => by
      refine (follows_parseType n).bind fun type => (follows_eat _).bind fun more => ?_
      cases more with
      | false => exact follows_pure id _
      | true => exact (follows_parseTypeParams n).bind fun types => follows_pure id _

end

theorem follows_takeTarget : Follows id takeTarget takeTarget := by
  refine follows_peek.bind fun t => ?_
  cases t with
  | target t => exact follows_advance.bind fun _ => follows_pure id (some t)
  | _ => exact follows_pure id none

theorem follows_takeString : Follows id takeString takeString := by
  refine follows_peek.bind fun t => ?_
  cases t with
  | string s => exact follows_advance.bind fun _ => follows_pure id (some s)
  | _ => exact follows_pure id none

theorem follows_parseActionRef : Follows id parseActionRef parseActionRef := by
  refine follows_takeTarget.bind fun target => ?_
  refine (follows_expect _ _).bind fun _ => (follows_expectString _).bind fun action => ?_
  refine (follows_expectMark _ _).bind fun _ => (follows_expectString _).bind fun category => ?_
  exact (follows_expectMark _ _).bind fun _ => follows_pure id _

theorem substitute_bare (constants : Constants) (name : String) (target : Option Target)
    (span : Span) :
    substitute constants.bare name target .nowhere =
      (substitute constants name target span).map Operand.bare := by
  rw [substitute, substitute, lookup_bare]
  cases constants.lookup name with
  | none => rfl
  | some constant =>
      cases constant with
      | expr e => rw [Option.map_some, Option.map_some, Operand.bare, Expr.bare_moveTo]; rfl
      | action ref => rfl

theorem follows_parseVector (start : Span) :
    Follows Operand.bare (parseVector start) (parseVector .nowhere) := by
  refine follows_advance.bind fun _ => (follows_expectSignedNumber _).bind fun x => ?_
  refine (follows_expectMark _ _).bind fun _ => (follows_expectSignedNumber _).bind fun y => ?_
  refine (follows_expectMark _ _).bind fun _ => (follows_expectSignedNumber _).bind fun z => ?_
  exact follows_close Operand.bare _ _ fun stop => rfl

theorem follows_parseTargeted (constants : Constants) (start : Span) (target : Target) :
    Follows Operand.bare (parseTargeted constants start target)
      (parseTargeted constants.bare .nowhere target) := by
  have hfail : Follows Operand.bare
      (do
        advance
        failHere "codeblock after target")
      (do
        advance
        failHere "codeblock after target") :=
    follows_advance.bind fun _ => follows_failHere _ _
  refine follows_get.bind fun c => ?_
  rw [Cursor.following_bare]
  cases c.following with
  | keyword k =>
      cases k with
      | codeblock =>
          exact follows_parseActionRef.bind fun ref => follows_ending Operand.bare fun stop => rfl
      | _ => exact hfail
  | ident name | varName name =>
      dsimp only
      rw [lookup_bare]
      cases constants.lookup name with
      | none => exact hfail
      | some constant =>
          cases constant with
          | expr e => exact hfail
          | action ref =>
              refine follows_advance.bind fun _ => follows_advance.bind fun _ => ?_
              exact follows_ending Operand.bare fun stop => rfl
  | _ => exact hfail

theorem follows_assignTo (left value : Expr) (equals : Span) :
    Follows Expr.bare (assignTo left value equals) (assignTo left.bare value.bare .nowhere) := by
  cases left with
  | «variable» span name =>
      rw [Expr.bare, assignTo, assignTo, Expr.span_bare]
      exact follows_pure Expr.bare (.assign _ name value)
  | index span object key =>
      rw [Expr.bare, assignTo, assignTo, Expr.span_bare]
      exact follows_pure Expr.bare (.setIndex _ object key value)
  | _ => exact follows_failAt _ _ _ _

mutual

theorem follows_parseExpr (constants : Constants) :
    ∀ n, Follows Expr.bare (parseExpr constants n) (parseExpr constants.bare n)
  | 0 => follows_exhausted _
  | n + 1 => by
      rw [parseExpr, parseExpr]
      refine (follows_parseBinary constants 0 n).bind fun left => follows_get.bind fun c => ?_
      rw [Cursor.token_bare, Cursor.span_bare]
      split
      · refine follows_advance.bind fun _ => (follows_parseExpr constants n).bind fun value => ?_
        exact follows_assignTo left value c.span
      · exact follows_pure Expr.bare left

theorem follows_parseBinary (constants : Constants) (least : Nat) :
    ∀ n, Follows Expr.bare (parseBinary constants least n) (parseBinary constants.bare least n)
  | 0 => follows_exhausted _
  | n + 1 => by
      rw [parseBinary, parseBinary]
      exact (follows_parsePostfix constants n).bind fun left =>
        follows_parseOperators constants least left n

theorem follows_parseOperators (constants : Constants) (least : Nat) (left : Expr) :
    ∀ n, Follows Expr.bare (parseOperators constants least left n)
      (parseOperators constants.bare least left.bare n)
  | 0 => follows_exhausted _
  | n + 1 => by
      rw [parseOperators, parseOperators]
      refine follows_get.bind fun c => ?_
      rw [Cursor.token_bare]
      cases binaryOp? c.token with
      | none => exact follows_pure Expr.bare left
      | some operator =>
          obtain ⟨op, strength, leftward⟩ := operator
          dsimp only
          split
          · exact follows_pure Expr.bare left
          · refine follows_advance.bind fun _ => ?_
            refine (follows_parseBinary constants _ n).bind fun right => ?_
            rw [Cursor.span_bare, Expr.span_bare, Expr.span_bare]
            exact follows_parseOperators constants least
              (.binary (left.span.merge right.span) op c.span left right) n

theorem follows_parsePostfix (constants : Constants) :
    ∀ n, Follows Expr.bare (parsePostfix constants n) (parsePostfix constants.bare n)
  | 0 => follows_exhausted _
  | n + 1 => by
      rw [parsePostfix, parsePostfix]
      refine (follows_parsePrimary constants n).bind fun operand => follows_peek.bind fun t => ?_
      cases operand with
      | action ref span =>
          have htail (args : List Expr) : Follows Expr.bare
              (do parseIndices constants (.action ⟨span.start, ← lastEnd⟩ ref args) n)
              (do
                parseIndices constants.bare (.action ⟨0, ← lastEnd⟩ ref (Expr.bareItems args)) n) :=
            follows_lastEnd.bind fun stop =>
              follows_parseIndices constants (.action ⟨span.start, stop⟩ ref args) n
          dsimp only [Operand.bare, id]
          split
          · exact (follows_parseArgs constants n).bind htail
          · exact (follows_pure Expr.bareItems []).bind htail
      | expr e =>
          cases e with
          | «variable» span name =>
              dsimp only [Operand.bare, Expr.bare, id]
              split
              · refine (follows_parseArgs constants n).bind fun args => ?_
                refine follows_lastEnd.bind fun stop => ?_
                exact follows_parseIndices constants (.call ⟨span.start, stop⟩ name args) n
              · exact follows_parseIndices constants (.variable span name) n
          | _ => exact follows_parseIndices constants _ n

theorem follows_parseIndices (constants : Constants) (object : Expr) :
    ∀ n, Follows Expr.bare (parseIndices constants object n)
      (parseIndices constants.bare object.bare n)
  | 0 => follows_exhausted _
  | n + 1 => by
      rw [parseIndices, parseIndices]
      refine (follows_eat _).bind fun bracket => ?_
      cases bracket with
      | true =>
          refine (follows_parseExpr constants n).bind fun key => ?_
          refine (follows_expectMark _ _).bind fun _ => follows_lastEnd.bind fun stop => ?_
          rw [Expr.span_bare]
          exact follows_parseIndices constants (.index ⟨object.span.start, stop⟩ object key) n
      | false =>
          refine (follows_eat _).bind fun dot => ?_
          cases dot with
          | true =>
              refine (follows_expectIdent _).bind fun r => ?_
              rw [Expr.span_bare]
              exact follows_parseIndices constants
                (.index ⟨object.span.start, r.2.stop⟩ object (.str r.2 r.1)) n
          | false => exact follows_pure Expr.bare object

theorem follows_parseArgs (constants : Constants) :
    ∀ n, Follows Expr.bareItems (parseArgs constants n) (parseArgs constants.bare n)
  | 0 => follows_exhausted _
  | n + 1 => by
      rw [parseArgs, parseArgs]
      refine (follows_expectMark _ _).bind fun _ => ?_
      refine (follows_parseArgsRest constants n).bind fun args => ?_
      exact (follows_expectMark _ _).bind fun _ => follows_pure Expr.bareItems args

theorem follows_parseArgsRest (constants : Constants) :
    ∀ n, Follows Expr.bareItems (parseArgsRest constants n) (parseArgsRest constants.bare n)
  | 0 => follows_exhausted _
  | n + 1 => by
      rw [parseArgsRest, parseArgsRest]
      refine follows_peek.bind fun t => ?_
      rw [id]
      split
      · exact follows_pure Expr.bareItems []
      · refine (follows_parseExpr constants n).bind fun arg => follows_peek.bind fun t => ?_
        rw [id]
        split
        · exact follows_pure Expr.bareItems [arg]
        · refine (follows_expectMark _ _).bind fun _ => ?_
          refine (follows_parseArgsRest constants n).bind fun args => ?_
          exact follows_pure Expr.bareItems (arg :: args)

theorem follows_parsePrimary (constants : Constants) :
    ∀ n, Follows Operand.bare (parsePrimary constants n) (parsePrimary constants.bare n)
  | 0 => follows_exhausted _
  | n + 1 => by
      rw [parsePrimary, parsePrimary]
      refine follows_get.bind fun c => ?_
      rw [Cursor.token_bare, Cursor.span_bare]
      generalize c.span = start
      cases c.token with
      | target t => exact follows_parseTargeted constants start t
      | keyword k =>
          cases k with
          | codeblock =>
              exact follows_parseActionRef.bind fun ref =>
                follows_ending Operand.bare fun stop => rfl
          | _ => exact follows_failHere _ _
      | ident name | varName name =>
          refine follows_advance.bind fun _ => ?_
          rw [substitute_bare constants name none start]
          cases substitute constants name none start with
          | none => exact follows_pure Operand.bare (.expr (.variable start name))
          | some operand => exact follows_pure Operand.bare operand
      | number x =>
          exact (follows_expectSignedNumber _).bind fun x =>
            follows_ending Operand.bare fun stop => rfl
      | string s =>
          exact follows_advance.bind fun _ => follows_pure Operand.bare (.expr (.str start s))
      | styledText s =>
          exact follows_advance.bind fun _ =>
            follows_pure Operand.bare (.expr (.styledText start s))
      | mark m =>
          cases m with
          | minus =>
              exact (follows_expectSignedNumber _).bind fun x =>
                follows_ending Operand.bare fun stop => rfl
          | less => exact follows_parseVector start
          | leftParen =>
              refine follows_advance.bind fun _ => follows_peek.bind fun t => ?_
              cases t with
              | type base =>
                  refine (follows_parseType n).bind fun type => ?_
                  refine (follows_expectMark _ _).bind fun _ => ?_
                  refine (follows_parseBinary constants 0 n).bind fun value => ?_
                  rw [Expr.span_bare]
                  exact follows_pure Operand.bare
                    (.expr (.cast ⟨start.start, value.span.stop⟩ type value))
              | _ =>
                  refine (follows_parseExpr constants n).bind fun inner => ?_
                  exact (follows_expectMark _ _).bind fun _ =>
                    follows_pure Operand.bare (.expr inner)
          | leftBrace =>
              refine follows_advance.bind fun _ => follows_peek.bind fun t => ?_
              dsimp only [id]
              split
              · exact (follows_pure Expr.bareEntries []).bind fun entries =>
                  follows_close Operand.bare _ _ fun stop => rfl
              · exact (follows_parseEntries constants n).bind fun entries =>
                  follows_close Operand.bare _ _ fun stop => rfl
          | leftBracket =>
              refine follows_advance.bind fun _ => follows_peek.bind fun t => ?_
              dsimp only [id]
              split
              · exact (follows_pure Expr.bareItems []).bind fun items =>
                  follows_close Operand.bare _ _ fun stop => rfl
              · exact (follows_parseItems constants n).bind fun items =>
                  follows_close Operand.bare _ _ fun stop => rfl
          | _ => exact follows_failHere _ _
      | _ => exact follows_failHere _ _

theorem follows_parseEntries (constants : Constants) :
    ∀ n, Follows Expr.bareEntries (parseEntries constants n) (parseEntries constants.bare n)
  | 0 => follows_exhausted _
  | n + 1 => by
      rw [parseEntries, parseEntries]
      refine (follows_expectString _).bind fun key => (follows_expectMark _ _).bind fun _ => ?_
      refine (follows_parseExpr constants n).bind fun value => follows_peek.bind fun t => ?_
      rw [id]
      split
      · exact follows_pure Expr.bareEntries [(key, value)]
      · refine (follows_expectMark _ _).bind fun _ => ?_
        refine (follows_parseEntries constants n).bind fun entries => ?_
        exact follows_pure Expr.bareEntries ((key, value) :: entries)

theorem follows_parseItems (constants : Constants) :
    ∀ n, Follows Expr.bareItems (parseItems constants n) (parseItems constants.bare n)
  | 0 => follows_exhausted _
  | n + 1 => by
      rw [parseItems, parseItems]
      refine (follows_parseExpr constants n).bind fun item => follows_peek.bind fun t => ?_
      rw [id]
      split
      · exact follows_pure Expr.bareItems [item]
      · refine (follows_expectMark _ _).bind fun _ => ?_
        refine (follows_parseItems constants n).bind fun items => ?_
        exact follows_pure Expr.bareItems (item :: items)

end

theorem follows_parseInitial (constants : Constants) (allowed : Bool) (n : Nat) :
    Follows (Option.map Expr.bare) (parseInitial constants allowed n)
      (parseInitial constants.bare allowed n) := by
  cases allowed with
  | false => exact follows_pure (Option.map Expr.bare) none
  | true =>
      refine (follows_eat _).bind fun given => ?_
      cases given with
      | false => exact follows_pure (Option.map Expr.bare) none
      | true =>
          exact (follows_parseExpr constants n).bind fun e =>
            follows_pure (Option.map Expr.bare) (some e)

theorem follows_parseVarDef (constants : Constants) (withValue : Bool) (n : Nat) :
    Follows VarDef.bare (parseVarDef constants withValue n)
      (parseVarDef constants.bare withValue n) := by
  refine follows_spanHere.bind fun start => follows_peek.bind fun t => ?_
  dsimp only [id]
  cases storageOf? t with
  | none => exact follows_failHere _ _
  | some storage =>
      refine follows_advance.bind fun _ => follows_expectVarName.bind fun name => ?_
      refine (follows_expectMark _ _).bind fun _ => (follows_parseType n).bind fun type => ?_
      refine (follows_parseInitial constants withValue n).bind fun value => ?_
      exact follows_close VarDef.bare _ _ fun stop => rfl

theorem follows_parseConstantValue (constants : Constants) (n : Nat) :
    Follows Constant.bare (parseConstantValue constants n)
      (parseConstantValue constants.bare n) := by
  refine follows_spanHere.bind fun start => follows_peek.bind fun t => ?_
  have haction : Follows Constant.bare
      (do
        let ref ← parseActionRef
        if (← peek) = .mark .leftParen then
          let args ← parseArgs constants n
          return .expr (.action ⟨start.start, ← lastEnd⟩ ref args)
        else return .action ref)
      (do
        let ref ← parseActionRef
        if (← peek) = .mark .leftParen then
          let args ← parseArgs constants.bare n
          return .expr (.action ⟨0, ← lastEnd⟩ ref args)
        else return .action ref) := by
    refine follows_parseActionRef.bind fun ref => follows_peek.bind fun t => ?_
    dsimp only [id]
    split
    · exact (follows_parseArgs constants n).bind fun args =>
        follows_ending Constant.bare fun stop => rfl
    · exact follows_pure Constant.bare (.action ref)
  have hexpr : Follows Constant.bare
      (do return .expr (← parseExpr constants n))
      (do return .expr (← parseExpr constants.bare n)) :=
    (follows_parseExpr constants n).bind fun e => follows_pure Constant.bare (.expr e)
  cases t with
  | target t => exact haction
  | keyword k =>
      cases k with
      | codeblock => exact haction
      | _ => exact hexpr
  | _ => exact hexpr

theorem follows_parseConst (constants : Constants) (n : Nat) :
    Follows Constants.bare (parseConst constants n) (parseConst constants.bare n) := by
  refine (follows_expect _ _).bind fun _ => (follows_expectIdent _).bind fun r => ?_
  refine (follows_expectMark _ _).bind fun _ => ?_
  refine (follows_parseConstantValue constants n).bind fun constant => ?_
  exact (follows_expectMark _ _).bind fun _ =>
    follows_pure Constants.bare ((r.1, constant) :: constants)

theorem follows_parseParam (n : Nat) : Follows id (parseParam n) (parseParam n) := by
  refine (follows_eat _).bind fun output => (follows_expectIdent _).bind fun r => ?_
  refine (follows_expectMark _ _).bind fun _ => (follows_parseType n).bind fun type => ?_
  refine (follows_eat _).bind fun plural => (follows_eat _).bind fun optional => ?_
  exact follows_takeString.bind fun description => follows_pure id _

theorem follows_parseParams : ∀ n, Follows id (parseParams n) (parseParams n)
  | 0 => follows_exhausted _
  | n + 1 => by
      refine follows_peek.bind fun t => ?_
      dsimp only [id]
      split
      · exact follows_pure id []
      · refine (follows_parseParam n).bind fun param => follows_peek.bind fun t => ?_
        dsimp only [id]
        split
        · exact follows_pure id [param]
        · refine (follows_expectMark _ _).bind fun _ => ?_
          refine (follows_parseParams n).bind fun params => ?_
          exact follows_pure id (param :: params)

theorem follows_parseStmt (constants : Constants) (n : Nat) :
    Follows Stmt.bare (parseStmt constants n) (parseStmt constants.bare n) := by
  refine follows_peek.bind fun t => ?_
  dsimp only [id]
  split
  · exact (follows_parseVarDef constants true n).bind fun d => follows_pure Stmt.bare (.var d)
  · refine follows_spanHere.bind fun start => (follows_parseExpr constants n).bind fun e => ?_
    rw [Expr.isStatement_bare]
    split
    · exact (follows_expectMark _ _).bind fun _ => follows_pure Stmt.bare (.expr e)
    · exact follows_failAt _ _ _ _

theorem follows_parseBody (constants : Constants) :
    ∀ n, Follows (List.map Stmt.bare) (parseBody constants n) (parseBody constants.bare n)
  | 0 => follows_exhausted _
  | n + 1 => by
      have hmore : Follows (List.map Stmt.bare)
          (do
            let stmt ← parseStmt constants n
            let stmts ← parseBody constants n
            return stmt :: stmts)
          (do
            let stmt ← parseStmt constants.bare n
            let stmts ← parseBody constants.bare n
            return stmt :: stmts) := by
        refine (follows_parseStmt constants n).bind fun stmt => ?_
        exact (follows_parseBody constants n).bind fun stmts =>
          follows_pure (List.map Stmt.bare) (stmt :: stmts)
      refine follows_peek.bind fun t => ?_
      cases t with
      | eof => exact follows_failHere _ _
      | mark m =>
          cases m with
          | rightBrace => exact follows_pure (List.map Stmt.bare) []
          | _ => exact hmore
      | _ => exact hmore

theorem follows_parseFunc (constants : Constants) (n : Nat) :
    Follows FuncDef.bare (parseFunc constants n) (parseFunc constants.bare n) := by
  refine (follows_expect _ _).bind fun _ => (follows_expectIdent _).bind fun r => ?_
  refine (follows_expectMark _ _).bind fun _ => (follows_parseParams n).bind fun params => ?_
  refine (follows_expectMark _ _).bind fun _ => (follows_eat _).bind fun closed => ?_
  cases closed with
  | true => exact follows_pure FuncDef.bare ⟨r.1, params, none, r.2⟩
  | false =>
      refine (follows_expectMark _ _).bind fun _ => ?_
      refine (follows_parseBody constants n).bind fun body => ?_
      exact (follows_expectMark _ _).bind fun _ =>
        follows_pure FuncDef.bare ⟨r.1, params, some body, r.2⟩

theorem follows_parseDefinitions (constants : Constants) : ∀ n,
    Follows (List.map Definition.bare) (parseDefinitions constants n)
      (parseDefinitions constants.bare n)
  | 0 => follows_exhausted _
  | n + 1 => by
      refine follows_peek.bind fun t => ?_
      have hvar : Follows (List.map Definition.bare)
          (do
            let d ← parseVarDef constants false n
            return .var d :: (← parseDefinitions constants n))
          (do
            let d ← parseVarDef constants.bare false n
            return .var d :: (← parseDefinitions constants.bare n)) := by
        refine (follows_parseVarDef constants false n).bind fun d => ?_
        exact (follows_parseDefinitions constants n).bind fun ds =>
          follows_pure (List.map Definition.bare) (.var d :: ds)
      cases t with
      | eof => exact follows_pure (List.map Definition.bare) []
      | keyword k =>
          cases k with
          | game | save => exact hvar
          | func =>
              refine (follows_parseFunc constants n).bind fun d => ?_
              exact (follows_parseDefinitions constants n).bind fun ds =>
                follows_pure (List.map Definition.bare) (.func d :: ds)
          | const =>
              exact (follows_parseConst constants n).bind fun constants =>
                follows_parseDefinitions constants n
          | _ => exact follows_failHere _ _
      | _ => exact follows_failHere _ _

end Parser

/-- The places of tokens decide nothing: they are only passed on. -/
theorem parse_bare (tokens : List Lexeme) :
    Alike (fun e e' => e.fault = e'.fault) (fun ds ds' => ds' = ds.map Definition.bare)
      (parse tokens) (parse (tokens.map Lexeme.bare)) := by
  rw [parse, parse]
  have hbound : Parser.bound (tokens.map Lexeme.bare) = Parser.bound tokens := by
    rw [Parser.bound, List.length_map, Parser.bound]
  rw [hbound]
  refine (Parser.follows_parseDefinitions [] (Parser.bound tokens) ⟨0, tokens⟩).bind ?_
  rintro ⟨ds, _⟩ _ rfl
  exact .ok rfl

end DiamondScript
