import DiamondScript.Proofs.Nesting
import DiamondScript.Proofs.ParserSpans
import DiamondScript.Proofs.Progress

namespace DiamondScript.Parser

theorem mirrors_close {α : Type} {running : List Activation} {b c : Cursor} (h : b.Before c)
    (m : Mark) (what : String) (f : Nat → α) :
    Mirrors
      (do
        let _ ← expectMark m what
        return f (← lastEnd))
      (do
        let _ ← expectMark m what
        return f (← lastEnd)) running c fun _ d => b.Before d :=
  (runs_expectMark h.upTo m what).andThen fun _ _ hd => mirrors_lastEnd_bind (mirrors_pure hd)

mutual

theorem mirrors_traceType : ∀ (n : Nat) {running : List Activation} {c : Cursor}, c.Closed →
    Room n running (rank .type c) →
    Mirrors (traceType n) (parseType n) running c fun _ d => c.Before d
  | 0, _, _, hc, room => absurd room (Room.not_zero hc)
  | n + 1, running, c, hc, room => by
      rw [traceType, parseType]
      refine room.enter fun inside => mirrors_peek_bind ?_
      cases htoken : c.token with
      | type base =>
          have h₁ := hc.upTo.advance (by simp [htoken])
          refine mirrors_advance_bind (mirrors_eat_bind (fun hless => ?_) (mirrors_pure h₁))
          have h₂ := h₁.upTo.advance (by simp [hless])
          refine ((mirrors_traceTypeParams n h₂.closed (inside.further h₂)).after h₂.upTo).bind
            fun params d hd => ?_
          exact (runs_expectMark hd.upTo _ _).andThen fun _ e he => mirrors_pure he
      | _ => exact (runs_failHere _).mirrors

theorem mirrors_traceTypeParams : ∀ (n : Nat) {running : List Activation} {c : Cursor}, c.Closed →
    Room n running (rank .typeParams c) →
    Mirrors (traceTypeParams n) (parseTypeParams n) running c fun _ d => c.Before d
  | 0, _, _, hc, room => absurd room (Room.not_zero hc)
  | n + 1, running, c, hc, room => by
      rw [traceTypeParams, parseTypeParams]
      refine room.enter fun inside => ?_
      refine (mirrors_traceType n hc (inside.here (by decide))).bind fun type d hd => ?_
      refine mirrors_eat_bind (fun hcomma => ?_) (mirrors_pure hd)
      have h₂ := hd.upTo.advance (by simp [hcomma])
      refine ((mirrors_traceTypeParams n h₂.closed (inside.further h₂)).after h₂.upTo).bind
        fun types e he => mirrors_pure he

end

-- By induction on the bound on nesting. A call at the same place has a smaller rank by its level
-- (`Inside.here`), one behind a token by what is left (`Inside.further`).
mutual

theorem mirrors_traceExpr (constants : Constants) : ∀ (n : Nat) {running : List Activation}
    {c : Cursor}, c.Closed → Room n running (rank .expr c) →
    Mirrors (traceExpr constants n) (parseExpr constants n) running c fun _ d => c.Before d
  | 0, _, _, hc, room => absurd room (Room.not_zero hc)
  | n + 1, running, c, hc, room => by
      rw [traceExpr, parseExpr]
      refine room.enter fun inside => ?_
      refine (mirrors_traceBinary constants n 0 hc (inside.here (by decide))).bind
        fun left d hd => mirrors_cursor_bind ?_
      refine .ite (fun hequals => ?_) fun _ => mirrors_pure hd
      have h₂ := hd.upTo.advance (by simp [hequals])
      refine mirrors_advance_bind ?_
      refine ((mirrors_traceExpr constants n h₂.closed (inside.further h₂)).after h₂.upTo).bind
        fun value e he => ?_
      exact ((runs_assignTo he.closed.upTo left value d.span).mirrors).loop he

theorem mirrors_traceBinary (constants : Constants) : ∀ (n least : Nat)
    {running : List Activation} {c : Cursor}, c.Closed → Room n running (rank .binary c) →
    Mirrors (traceBinary constants least n) (parseBinary constants least n) running c
      fun _ d => c.Before d
  | 0, _, _, _, hc, room => absurd room (Room.not_zero hc)
  | n + 1, least, running, c, hc, room => by
      rw [traceBinary, parseBinary]
      refine room.enter fun inside => ?_
      refine (mirrors_tracePostfix constants n hc (inside.here (by decide))).bind
        fun left d hd => ?_
      exact (mirrors_traceOperators constants n least left hd.closed (inside.further hd)).loop hd

theorem mirrors_traceOperators (constants : Constants) : ∀ (n least : Nat) (left : Expr)
    {running : List Activation} {c : Cursor}, c.Closed → Room n running (rank .operators c) →
    Mirrors (traceOperators constants least left n) (parseOperators constants least left n)
      running c fun _ d => c.UpTo d
  | 0, _, _, _, _, hc, room => absurd room (Room.not_zero hc)
  | n + 1, least, left, running, c, hc, room => by
      rw [traceOperators, parseOperators]
      refine room.enter fun inside => mirrors_cursor_bind ?_
      cases hop : binaryOp? c.token with
      | none => exact mirrors_pure hc.upTo
      | some operator =>
          have hne : c.token ≠ .eof := by
            intro heof
            rw [heof] at hop
            cases hop
          have h₁ := hc.upTo.advance hne
          refine .ite (fun _ => mirrors_pure hc.upTo) fun _ => mirrors_advance_bind ?_
          refine ((mirrors_traceBinary constants n _ h₁.closed (inside.further h₁)).after
            h₁.upTo).bind fun right d hd => ?_
          exact ((mirrors_traceOperators constants n least _ hd.closed (inside.further hd)).loop
            hd).mono fun _ _ he => he.upTo

theorem mirrors_tracePostfix (constants : Constants) : ∀ (n : Nat) {running : List Activation}
    {c : Cursor}, c.Closed → Room n running (rank .operand c) →
    Mirrors (tracePostfix constants n) (parsePostfix constants n) running c fun _ d => c.Before d
  | 0, _, _, hc, room => absurd room (Room.not_zero hc)
  | n + 1, running, c, hc, room => by
      rw [tracePostfix, parsePostfix]
      refine room.enter fun inside => ?_
      refine (mirrors_tracePrimary constants n hc (inside.here (by decide))).bind
        fun operand d hd => mirrors_peek_bind ?_
      have hindices (object : Expr) {e : Cursor} (he : c.Before e) :
          Mirrors (traceIndices constants object n) (parseIndices constants object n)
            (⟨.operand, c.rest.length⟩ :: running) e fun _ e' => c.Before e' :=
        (mirrors_traceIndices constants n object he.closed (inside.further he)).loop he
      have hargs := (mirrors_traceArgs constants n hd.closed (inside.further hd)).after hd.upTo
      cases operand with
      | action ref span =>
          exact .ite
            (fun _ => hargs.bind fun args e he => mirrors_lastEnd_bind (hindices _ he))
            (fun _ => mirrors_pure_bind (mirrors_lastEnd_bind (hindices _ hd)))
      | expr e =>
          cases e with
          | «variable» span name =>
              exact .ite
                (fun _ => hargs.bind fun args e he => mirrors_lastEnd_bind (hindices _ he))
                (fun _ => hindices _ hd)
          | _ => exact hindices _ hd

theorem mirrors_traceIndices (constants : Constants) : ∀ (n : Nat) (object : Expr)
    {running : List Activation} {c : Cursor}, c.Closed → Room n running (rank .indices c) →
    Mirrors (traceIndices constants object n) (parseIndices constants object n) running c
      fun _ d => c.UpTo d
  | 0, _, _, _, hc, room => absurd room (Room.not_zero hc)
  | n + 1, object, running, c, hc, room => by
      rw [traceIndices, parseIndices]
      refine room.enter fun inside => ?_
      have hagain (object : Expr) {e : Cursor} (he : c.Before e) :
          Mirrors (traceIndices constants object n) (parseIndices constants object n)
            (⟨.indices, c.rest.length⟩ :: running) e fun _ e' => c.UpTo e' :=
        ((mirrors_traceIndices constants n object he.closed (inside.further he)).loop he).mono
          fun _ _ he' => he'.upTo
      refine mirrors_eat_bind (fun hbracket => ?_)
        (mirrors_eat_bind (fun hdot => ?_) (mirrors_pure hc.upTo))
      · have h₁ := hc.upTo.advance (by simp [hbracket])
        refine ((mirrors_traceExpr constants n h₁.closed (inside.further h₁)).after h₁.upTo).bind
          fun index d hd => ?_
        exact (runs_expectMark hd.upTo _ _).andThen fun _ e he =>
          mirrors_lastEnd_bind (hagain _ he)
      · have h₁ := hc.upTo.advance (by simp [hdot])
        exact (runs_expectIdent h₁.upTo _).andThen fun key d hd => hagain _ hd

theorem mirrors_traceArgs (constants : Constants) : ∀ (n : Nat) {running : List Activation}
    {c : Cursor}, c.Closed → Room n running (rank .args c) →
    Mirrors (traceArgs constants n) (parseArgs constants n) running c fun _ d => c.Before d
  | 0, _, _, hc, room => absurd room (Room.not_zero hc)
  | n + 1, running, c, hc, room => by
      rw [traceArgs, parseArgs]
      refine room.enter fun inside => ?_
      refine (runs_expectMark hc.upTo _ _).andThen fun _ d hd => ?_
      refine ((mirrors_traceArgsRest constants n hd.closed (inside.further hd)).loop hd).bind
        fun args e he => ?_
      exact (runs_expectMark he.upTo _ _).andThen fun _ e' he' => mirrors_pure he'

theorem mirrors_traceArgsRest (constants : Constants) : ∀ (n : Nat) {running : List Activation}
    {c : Cursor}, c.Closed → Room n running (rank .argsRest c) →
    Mirrors (traceArgsRest constants n) (parseArgsRest constants n) running c
      fun _ d => c.UpTo d
  | 0, _, _, hc, room => absurd room (Room.not_zero hc)
  | n + 1, running, c, hc, room => by
      rw [traceArgsRest, parseArgsRest]
      refine room.enter fun inside => mirrors_peek_bind ?_
      refine .ite (fun _ => mirrors_pure hc.upTo) fun _ => ?_
      refine (mirrors_traceExpr constants n hc (inside.here (by decide))).bind
        fun arg d hd => mirrors_peek_bind ?_
      refine .ite (fun _ => mirrors_pure hd.upTo) fun _ => ?_
      refine (runs_expectMark hd.upTo _ _).andThen fun _ e he => ?_
      exact ((mirrors_traceArgsRest constants n he.closed (inside.further he)).loop he).bind
        fun args e' he' => mirrors_pure he'.upTo

theorem mirrors_tracePrimary (constants : Constants) : ∀ (n : Nat) {running : List Activation}
    {c : Cursor}, c.Closed → Room n running (rank .primary c) →
    Mirrors (tracePrimary constants n) (parsePrimary constants n) running c fun _ d => c.Before d
  | 0, _, _, hc, room => absurd room (Room.not_zero hc)
  | n + 1, running, c, hc, room => by
      rw [tracePrimary, parsePrimary]
      refine room.enter fun inside => mirrors_cursor_bind ?_
      have hnumber : Mirrors
          (do
            let x ← expectSignedNumber "expression"
            return .expr (.number ⟨c.span.start, ← lastEnd⟩ x))
          (do
            let x ← expectSignedNumber "expression"
            return .expr (.number ⟨c.span.start, ← lastEnd⟩ x))
          (⟨.primary, c.rest.length⟩ :: running) c fun (_ : Operand) d => c.Before d :=
        (runs_expectSignedNumber hc.upTo _).andThen fun x d hd =>
          mirrors_lastEnd_bind (mirrors_pure hd)
      cases htoken : c.token with
      | target t => exact (runs_parseTargeted hc.upTo constants _ htoken).mirrors
      | keyword word =>
          cases word with
          | codeblock =>
              exact (runs_parseActionRef hc.upTo).andThen fun ref d hd =>
                mirrors_lastEnd_bind (mirrors_pure hd)
          | _ => exact (runs_failHere _).mirrors
      | ident name | varName name =>
          exact mirrors_advance_bind (mirrors_pure (hc.upTo.advance (by simp [htoken])))
      | number x => exact hnumber
      | string s | styledText s =>
          exact mirrors_advance_bind (mirrors_pure (hc.upTo.advance (by simp [htoken])))
      | mark m =>
          have h₁ := hc.upTo.advance (by simp [htoken])
          cases m with
          | minus => exact hnumber
          | less => exact (runs_parseVector hc.upTo htoken _).mirrors
          | leftParen =>
              refine mirrors_advance_bind (mirrors_peek_bind ?_)
              cases c.advance.token with
              | type base =>
                  refine ((mirrors_traceType n h₁.closed (inside.further h₁)).after h₁.upTo).bind
                    fun type d hd => ?_
                  refine (runs_expectMark hd.upTo _ _).andThen fun _ e he => ?_
                  exact ((mirrors_traceBinary constants n 0 he.closed (inside.further he)).after
                    he.upTo).bind fun value e' he' => mirrors_pure he'
              | _ =>
                  refine ((mirrors_traceExpr constants n h₁.closed (inside.further h₁)).after
                    h₁.upTo).bind fun inner d hd => ?_
                  exact (runs_expectMark hd.upTo _ _).andThen fun _ e he => mirrors_pure he
          | leftBrace =>
              refine mirrors_advance_bind (mirrors_peek_bind (.ite
                (fun _ => mirrors_pure_bind (mirrors_close h₁ _ _ _)) fun _ => ?_))
              exact ((mirrors_traceEntries constants n h₁.closed (inside.further h₁)).after
                h₁.upTo).bind fun entries d hd => mirrors_close hd _ _ _
          | leftBracket =>
              refine mirrors_advance_bind (mirrors_peek_bind (.ite
                (fun _ => mirrors_pure_bind (mirrors_close h₁ _ _ _)) fun _ => ?_))
              exact ((mirrors_traceItems constants n h₁.closed (inside.further h₁)).after
                h₁.upTo).bind fun items d hd => mirrors_close hd _ _ _
          | _ => exact (runs_failHere _).mirrors
      | _ => exact (runs_failHere _).mirrors

theorem mirrors_traceEntries (constants : Constants) : ∀ (n : Nat) {running : List Activation}
    {c : Cursor}, c.Closed → Room n running (rank .entries c) →
    Mirrors (traceEntries constants n) (parseEntries constants n) running c fun _ d => c.Before d
  | 0, _, _, hc, room => absurd room (Room.not_zero hc)
  | n + 1, running, c, hc, room => by
      rw [traceEntries, parseEntries]
      refine room.enter fun inside => ?_
      refine (runs_expectString hc.upTo _).andThen fun key c₁ h₁ => ?_
      refine (runs_expectMark h₁.upTo _ _).andThen fun _ c₂ h₂ => ?_
      refine ((mirrors_traceExpr constants n h₂.closed (inside.further h₂)).after h₂.upTo).bind
        fun value c₃ h₃ => mirrors_peek_bind ?_
      refine .ite (fun _ => mirrors_pure h₃) fun _ => ?_
      refine (runs_expectMark h₃.upTo _ _).andThen fun _ c₄ h₄ => ?_
      exact ((mirrors_traceEntries constants n h₄.closed (inside.further h₄)).after h₄.upTo).bind
        fun entries c₅ h₅ => mirrors_pure h₅

theorem mirrors_traceItems (constants : Constants) : ∀ (n : Nat) {running : List Activation}
    {c : Cursor}, c.Closed → Room n running (rank .items c) →
    Mirrors (traceItems constants n) (parseItems constants n) running c fun _ d => c.Before d
  | 0, _, _, hc, room => absurd room (Room.not_zero hc)
  | n + 1, running, c, hc, room => by
      rw [traceItems, parseItems]
      refine room.enter fun inside => ?_
      refine (mirrors_traceExpr constants n hc (inside.here (by decide))).bind
        fun item d hd => mirrors_peek_bind ?_
      refine .ite (fun _ => mirrors_pure hd) fun _ => ?_
      refine (runs_expectMark hd.upTo _ _).andThen fun _ e he => ?_
      exact ((mirrors_traceItems constants n he.closed (inside.further he)).after he.upTo).bind
        fun items e' he' => mirrors_pure he'

end

section

variable (constants : Constants) {n : Nat} {running : List Activation} {c : Cursor}

theorem mirrors_traceInitial {b : Cursor} (h : b.Before c) (room : Room n running (rank .expr b))
    (allowed : Bool) : Mirrors (traceInitial constants allowed n) (parseInitial constants allowed n)
      running c fun _ d => b.Before d := by
  rw [traceInitial, parseInitial]
  refine .ite (fun _ => ?_) fun _ => mirrors_pure h
  refine mirrors_eat_bind (fun hequals => ?_) (mirrors_pure h)
  have h₁ := h.upTo.advance (by simp [hequals])
  exact ((mirrors_traceExpr constants n h₁.closed (room.further h₁)).after h₁.upTo).bind
    fun value d hd => mirrors_pure hd

theorem mirrors_traceVarDef (hc : c.Closed) (room : Room n running (rank .expr c))
    (withValue : Bool) : Mirrors (traceVarDef constants withValue n)
      (parseVarDef constants withValue n) running c fun _ d => c.Before d := by
  rw [traceVarDef, parseVarDef]
  refine mirrors_spanHere_bind (mirrors_peek_bind ?_)
  cases hstorage : storageOf? c.token with
  | none => exact (runs_failHere _).mirrors
  | some storage =>
      have hne : c.token ≠ .eof := by
        intro heof
        rw [heof] at hstorage
        cases hstorage
      have h₁ := hc.upTo.advance hne
      refine mirrors_advance_bind ((runs_expectVarName h₁.upTo).andThen fun name c₂ h₂ => ?_)
      refine (runs_expectMark h₂.upTo _ _).andThen fun _ c₃ h₃ => ?_
      refine ((mirrors_traceType n h₃.closed (room.further h₃)).after h₃.upTo).bind
        fun type c₄ h₄ => ?_
      refine (mirrors_traceInitial constants h₄ room withValue).bind fun value c₅ h₅ => ?_
      exact mirrors_close h₅ _ _ _

theorem mirrors_traceConstantValue {b : Cursor} (h : b.Before c)
    (room : Room n running (rank .expr b)) : Mirrors (traceConstantValue constants n)
      (parseConstantValue constants n) running c fun _ d => b.Before d := by
  have haction (start : Span) : Mirrors
      (do
        let ref ← parseActionRef
        if (← peek) = .mark .leftParen then
          let args ← traceArgs constants n
          return Constant.expr (.action ⟨start.start, ← lastEnd⟩ ref args)
        else return Constant.action ref)
      (do
        let ref ← parseActionRef
        if (← peek) = .mark .leftParen then
          let args ← parseArgs constants n
          return Constant.expr (.action ⟨start.start, ← lastEnd⟩ ref args)
        else return Constant.action ref) running c fun _ d => b.Before d := by
    refine (runs_parseActionRef h.upTo).andThen fun ref d hd => mirrors_peek_bind ?_
    refine .ite (fun _ => ?_) fun _ => mirrors_pure hd
    exact ((mirrors_traceArgs constants n hd.closed (room.further hd)).after hd.upTo).bind
      fun args e he => mirrors_lastEnd_bind (mirrors_pure he)
  have hexpr : Mirrors (do return Constant.expr (← traceExpr constants n))
      (do return Constant.expr (← parseExpr constants n)) running c fun _ d => b.Before d :=
    ((mirrors_traceExpr constants n h.closed (room.further h)).after h.upTo).bind
      fun e d hd => mirrors_pure hd
  rw [traceConstantValue, parseConstantValue]
  refine mirrors_spanHere_bind (mirrors_peek_bind ?_)
  cases c.token with
  | target t => exact haction _
  | keyword word =>
      cases word with
      | codeblock => exact haction _
      | _ => exact hexpr
  | _ => exact hexpr

theorem mirrors_traceConst (hc : c.Closed) (room : Room n running (rank .expr c)) :
    Mirrors (traceConst constants n) (parseConst constants n) running c fun _ d => c.Before d := by
  rw [traceConst, parseConst]
  refine (runs_expectKeyword hc.upTo _ _).andThen fun _ c₁ h₁ => ?_
  refine (runs_expectIdent h₁.upTo _).andThen fun r c₂ h₂ => ?_
  refine (runs_expectMark h₂.upTo _ _).andThen fun _ c₃ h₃ => ?_
  refine (mirrors_traceConstantValue constants h₃ room).bind fun constant c₄ h₄ => ?_
  exact (runs_expectMark h₄.upTo _ _).andThen fun _ c₅ h₅ => mirrors_pure h₅

theorem mirrors_traceStmt (hc : c.Closed) (room : Room n running (rank .expr c)) :
    Mirrors (traceStmt constants n) (parseStmt constants n) running c fun _ d => c.Before d := by
  rw [traceStmt, parseStmt]
  refine mirrors_peek_bind (.ite (fun _ => ?_) fun _ => mirrors_spanHere_bind ?_)
  · exact (mirrors_traceVarDef constants hc room true).bind fun d e he => mirrors_pure he
  · refine (mirrors_traceExpr constants n hc room).bind fun e d hd => .ite (fun _ => ?_) fun _ => ?_
    · exact (runs_expectMark hd.upTo _ _).andThen fun _ e' he' => mirrors_pure he'
    · exact (runs_failAt ParseFault.noConfusion _).mirrors

theorem mirrors_traceParam (hc : c.Closed) (room : Room n running (rank .expr c)) :
    Mirrors (traceParam n) (parseParam n) running c fun _ d => c.Before d := by
  rw [traceParam, parseParam]
  refine (runs_eat hc.upTo Token.noConfusion).andThen fun output c₁ h₁ => ?_
  refine (runs_expectIdent h₁ _).andThen fun r c₂ h₂ => ?_
  refine (runs_expectMark h₂.upTo _ _).andThen fun _ c₃ h₃ => ?_
  refine ((mirrors_traceType n h₃.closed (room.further h₃)).after h₃.upTo).bind fun type c₄ h₄ => ?_
  refine ((runs_eat h₄.closed.upTo Token.noConfusion).loop h₄).andThen fun plural c₅ h₅ => ?_
  refine ((runs_eat h₅.closed.upTo Token.noConfusion).loop h₅).andThen fun optional c₆ h₆ => ?_
  exact ((runs_takeString h₆.closed.upTo).loop h₆).andThen fun description c₇ h₇ => mirrors_pure h₇

end

theorem mirrors_traceParams (n : Nat) {running : List Activation} {c : Cursor} (hc : c.Closed)
    (room : Room n running (rank .params c)) :
    Mirrors (traceParams n) (parseParams n) running c fun _ d => c.UpTo d := by
  induction n generalizing running c with
  | zero => exact absurd room (Room.not_zero hc)
  | succ n ih =>
      rw [traceParams, parseParams]
      refine room.enter fun inside => mirrors_peek_bind ?_
      refine .ite (fun _ => mirrors_pure hc.upTo) fun _ => ?_
      refine (mirrors_traceParam hc (inside.here (by decide))).bind fun param d hd =>
        mirrors_peek_bind ?_
      refine .ite (fun _ => mirrors_pure hd.upTo) fun _ => ?_
      refine (runs_expectMark hd.upTo _ _).andThen fun _ e he => ?_
      exact ((ih he.closed (inside.further he)).loop he).bind fun params e' he' =>
        mirrors_pure he'.upTo

theorem mirrors_traceBody (constants : Constants) (n : Nat) {running : List Activation}
    {c : Cursor} (hc : c.Closed) (room : Room n running (rank .body c)) :
    Mirrors (traceBody constants n) (parseBody constants n) running c fun _ d => c.UpTo d := by
  induction n generalizing running c with
  | zero => exact absurd room (Room.not_zero hc)
  | succ n ih =>
      rw [traceBody, parseBody]
      refine room.enter fun inside => mirrors_peek_bind ?_
      have hnext : Mirrors
          (do
            let stmt ← traceStmt constants n
            let stmts ← traceBody constants n
            return stmt :: stmts)
          (do
            let stmt ← parseStmt constants n
            let stmts ← parseBody constants n
            return stmt :: stmts) (⟨.body, c.rest.length⟩ :: running) c fun _ d => c.UpTo d := by
        refine (mirrors_traceStmt constants hc (inside.here (by decide))).bind fun stmt d hd => ?_
        exact ((ih hd.closed (inside.further hd)).loop hd).bind fun stmts e he =>
          mirrors_pure he.upTo
      cases c.token with
      | mark m =>
          cases m with
          | rightBrace => exact mirrors_pure hc.upTo
          | _ => exact hnext
      | eof => exact (runs_failHere _).mirrors
      | _ => exact hnext

theorem mirrors_traceFunc (constants : Constants) {n : Nat} {running : List Activation}
    {c : Cursor} (hc : c.Closed) (room : Room n running (rank .expr c)) :
    Mirrors (traceFunc constants n) (parseFunc constants n) running c fun _ d => c.Before d := by
  rw [traceFunc, parseFunc]
  refine (runs_expectKeyword hc.upTo _ _).andThen fun _ c₁ h₁ => ?_
  refine (runs_expectIdent h₁.upTo _).andThen fun r c₂ h₂ => ?_
  refine (runs_expectMark h₂.upTo _ _).andThen fun _ c₃ h₃ => ?_
  refine ((mirrors_traceParams n h₃.closed (room.further h₃)).loop h₃).bind fun params c₄ h₄ => ?_
  refine (runs_expectMark h₄.upTo _ _).andThen fun _ c₅ h₅ => ?_
  refine mirrors_eat_bind (fun hsemicolon => ?_) ?_
  · exact mirrors_pure (h₅.upTo.advance (by simp [hsemicolon]))
  · refine (runs_expectMark h₅.upTo _ _).andThen fun _ c₆ h₆ => ?_
    refine ((mirrors_traceBody constants n h₆.closed (room.further h₆)).loop h₆).bind
      fun body c₇ h₇ => ?_
    exact (runs_expectMark h₇.upTo _ _).andThen fun _ c₈ h₈ => mirrors_pure h₈

theorem mirrors_traceDefinitions (constants : Constants) (n : Nat) {running : List Activation}
    {c : Cursor} (hc : c.Closed) (room : Room n running (rank .definitions c)) :
    Mirrors (traceDefinitions constants n) (parseDefinitions constants n) running c
      fun _ d => c.UpTo d := by
  induction n generalizing constants running c with
  | zero => exact absurd room (Room.not_zero hc)
  | succ n ih =>
      rw [traceDefinitions, parseDefinitions]
      refine room.enter fun inside => mirrors_peek_bind ?_
      have hroom := inside.here (g := .expr) (by decide)
      have hagain (constants : Constants) {d : Cursor} (hd : c.Before d) :
          Mirrors (traceDefinitions constants n) (parseDefinitions constants n)
            (⟨.definitions, c.rest.length⟩ :: running) d fun _ e => c.UpTo e :=
        ((ih constants hd.closed (inside.further hd)).loop hd).mono fun _ _ he => he.upTo
      have hvar : Mirrors
          (do
            let d ← traceVarDef constants false n
            return .var d :: (← traceDefinitions constants n))
          (do
            let d ← parseVarDef constants false n
            return .var d :: (← parseDefinitions constants n))
          (⟨.definitions, c.rest.length⟩ :: running) c fun _ d => c.UpTo d :=
        (mirrors_traceVarDef constants hc hroom false).bind fun d e he =>
          (hagain constants he).bind fun definitions e' he' => mirrors_pure he'
      cases c.token with
      | eof => exact mirrors_pure hc.upTo
      | keyword word =>
          cases word with
          | game | save => exact hvar
          | func =>
              exact (mirrors_traceFunc constants hc hroom).bind fun d e he =>
                (hagain constants he).bind fun definitions e' he' => mirrors_pure he'
          | const =>
              exact (mirrors_traceConst constants hc hroom).bind fun constants e he =>
                hagain constants he
          | _ => exact (runs_failHere _).mirrors
      | _ => exact (runs_failHere _).mirrors

theorem mirrors_tokens {tokens : List Lexeme}
    (h : (tokens.map Lexeme.token).getLast? = some .eof) :
    Mirrors (traceDefinitions [] (bound tokens)) (parseDefinitions [] (bound tokens)) []
      ⟨0, tokens⟩ fun _ d => Cursor.UpTo ⟨0, tokens⟩ d :=
  mirrors_traceDefinitions [] (bound tokens) h
    ⟨List.Pairwise.nil, List.forall_mem_nil _, by simp only [rank, bound, Routine.level]; omega⟩

theorem Descends.left_lt {running : List Activation} (h : Descends running) :
    running.Pairwise fun inner outer =>
      inner.routine = outer.routine → inner.left < outer.left := by
  refine h.imp fun {inner outer} hrank hroutine => ?_
  rw [Activation.rank, Activation.rank, hroutine] at hrank
  omega

/-- The parser halts on what the lexer gives it, and on all tokens closed by the end of file: the
bound on nesting is not used up, no larger one changes the outcome, and whenever a routine is
called inside of itself or goes round once more, fewer tokens are left. -/
theorem parse_halts (tokens : List Lexeme) :
    (∀ source, lex source = .ok tokens → (tokens.map Lexeme.token).getLast? = some .eof) ∧
    ((tokens.map Lexeme.token).getLast? = some .eof →
      let traced := traceDefinitions [] (bound tokens) [] ⟨0, tokens⟩
      (∀ e, parse tokens = .error e → e.fault ≠ .exhausted) ∧
      (∀ n, 8 * tokens.length + 8 ≤ n →
        parseDefinitions [] n ⟨0, tokens⟩ = parseDefinitions [] (bound tokens) ⟨0, tokens⟩) ∧
      traced.1 = parseDefinitions [] (bound tokens) ⟨0, tokens⟩ ∧
      ∀ running ∈ traced.2, running.Pairwise fun inner outer =>
        inner.routine = outer.routine → inner.left < outer.left) := by
  refine ⟨fun source hlex => (accounts_of_lex hlex).cursor_closed 0, fun h => ?_⟩
  have hmirrors := mirrors_tokens h
  refine ⟨fun e he => ?_, fun n hn => ?_, hmirrors.outcome, fun running hrunning => ?_⟩
  · rcases bind_eq_error.mp he with hrun | ⟨r, -, hdone⟩
    · exact hmirrors.runs.answers e hrun
    · cases hdone
  · have hrefines := refines_of_le (fun m => refines_parseDefinitions m []) hn
    rcases hrefines ⟨0, tokens⟩ with ⟨span, he⟩ | hsame
    · exact absurd rfl (hmirrors.runs.answers _ he)
    · exact hsame
  · exact (hmirrors.descends running hrunning).left_lt

/-- A type inside of a type inside of a type, each further on than the one around it. -/
theorem parse_halts_nested :
    let source := "game g: list<list<num>>;"
    let innermost : List Activation := [⟨.type, 5⟩, ⟨.typeParams, 5⟩, ⟨.type, 7⟩,
      ⟨.typeParams, 7⟩, ⟨.type, 9⟩, ⟨.definitions, 12⟩]
    ∃ tokens, lex source = .ok tokens ∧ (tokens.map Lexeme.token).getLast? = some .eof ∧
      (∀ e, parse tokens = .error e → e.fault ≠ .exhausted) ∧
      innermost ∈ (traceDefinitions [] (bound tokens) [] ⟨0, tokens⟩).2 ∧
      innermost.Pairwise fun inner outer =>
        inner.routine = outer.routine → inner.left < outer.left := by
  intro source innermost
  have hsource : source = "game g: list<list<num>>;" := rfl
  have hlex : lex source = .ok [⟨.keyword .game, ⟨0, 4⟩⟩, ⟨.ident "g", ⟨5, 6⟩⟩,
      ⟨.mark .colon, ⟨6, 7⟩⟩, ⟨.type .list, ⟨8, 12⟩⟩, ⟨.mark .less, ⟨12, 13⟩⟩,
      ⟨.type .list, ⟨13, 17⟩⟩, ⟨.mark .less, ⟨17, 18⟩⟩, ⟨.type .num, ⟨18, 21⟩⟩,
      ⟨.mark .greater, ⟨21, 22⟩⟩, ⟨.mark .greater, ⟨22, 23⟩⟩, ⟨.mark .semicolon, ⟨23, 24⟩⟩,
      ⟨.eof, ⟨24, 24⟩⟩] := by
    rw [hsource]
    rfl
  obtain ⟨hclosed, hhalts⟩ := parse_halts _
  obtain ⟨hanswers, -, -, hcalls⟩ := hhalts (hclosed source hlex)
  refine ⟨_, hlex, hclosed source hlex, hanswers, ?_⟩
  refine (and_iff_left_of_imp (hcalls innermost)).mpr ?_
  exact List.mem_of_getElem? (i := 5) rfl

/-- Without the end of file the last token would be read over and over again. -/
example : parse [⟨.keyword .const, ⟨0, 5⟩⟩, ⟨.ident "a", ⟨6, 7⟩⟩, ⟨.mark .equals, ⟨8, 9⟩⟩,
    ⟨.mark .leftBracket, ⟨10, 11⟩⟩] = .error ⟨.exhausted, ⟨10, 11⟩⟩ := rfl

end DiamondScript.Parser
