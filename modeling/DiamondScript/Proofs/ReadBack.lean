import DiamondScript.Proofs.Operands

namespace DiamondScript

open Style (group)

open Grammar (ifPresent)

namespace Parser

open Cursor (ahead)

section

variable {n : Nat} {ts : List Token}

theorem parseExpr_outer (style : Style) (e : Expr)
    (hn : 8 * (style.outer (e.tokens style)).length ≤ n) (hts : (ahead ts).token.closes) :
    parseExpr [] n (ahead (style.outer (e.tokens style) ++ ts)) = .ok (e.written, ahead ts) := by
  cases hgrouped : style.grouped with
  | true =>
      simp only [Style.outer, hgrouped, if_true, group, List.length_append, List.length_cons] at hn
      rw [Style.outer, if_pos hgrouped]
      exact (readsBack style e).group (by omega) hts
  | false =>
      simp only [Style.outer, hgrouped, Bool.false_eq_true, if_false] at hn ⊢
      exact readsBack style e n ts hn hts

theorem opens_outer (style : Style) (e : Expr) (ts : List Token) :
    Opens (ahead (style.outer (e.tokens style) ++ ts)).token := by
  unfold Style.outer
  split
  · simp [group, Opens, storageOf?, Token.closes]
  · exact opens_tokens style e ts

theorem storageOf?_token {storage : Storage} (h : storage ≠ .line) :
    storageOf? storage.token = some storage := by
  cases storage with
  | line => exact absurd rfl h
  | _ => rfl

theorem parseInitial_ahead (style : Style) (value : Option Expr) {allowed : Bool}
    (hallowed : allowed = false → value = none)
    (hn : 8 * (style.initial value).length ≤ n) :
    parseInitial [] allowed n (ahead (style.initial value ++ .mark .semicolon :: ts)) =
      .ok (value.map Expr.written, ahead (.mark .semicolon :: ts)) := by
  cases value with
  | none =>
      cases allowed with
      | false => rfl
      | true =>
          rw [parseInitial, if_pos rfl]
          exact run_eat_other (by simp [Style.initial]) _
  | some e =>
      cases allowed with
      | false => cases hallowed rfl
      | true =>
          rw [Style.initial, List.length_cons] at hn
          rw [parseInitial, if_pos rfl, Style.initial, List.cons_append, run_eat_ahead,
            if_pos rfl, run_bind_of_ok (parseExpr_outer style e (by omega) rfl)]
          rfl

theorem parseVarDef_ahead (style : Style) (d : VarDef) {allowed : Bool}
    (hstorage : d.storage ≠ .line) (hallowed : allowed = false → d.value = none)
    (hn : 8 * (d.tokens style).length ≤ n) :
    parseVarDef [] allowed n (ahead (d.tokens style ++ ts)) = .ok (d.written, ahead ts) := by
  simp only [VarDef.tokens, List.length_append, List.length_cons] at hn
  have hless : (ahead (style.initial d.value ++ .mark .semicolon :: ts)).token ≠ .mark .less := by
    cases d.value <;> simp [Style.initial]
  simp only [VarDef.tokens, List.cons_append, List.append_assoc, List.nil_append]
  rw [parseVarDef, run_spanHere_bind, run_peek_bind, Cursor.token_ahead,
    storageOf?_token hstorage]
  dsimp only
  rw [run_advance_bind, Cursor.advance_ahead, run_expectVarName_ahead, run_expectMark_ahead,
    run_bind_of_ok (parseType_ahead d.type (by omega) hless),
    run_bind_of_ok (parseInitial_ahead style d.value hallowed (by omega)), run_expectMark_ahead,
    Cursor.span_ahead]
  rfl

theorem run_eat_ifPresent {α : Type} {t : Token} (present : Bool) (hts : (ahead ts).token ≠ t)
    (f : Bool → Parse α) :
    (eat t >>= f) (ahead (ifPresent present t ++ ts)) = f present (ahead ts) := by
  cases present with
  | false => exact run_eat_other hts f
  | true => exact run_eat_ahead t f

theorem run_takeString_ahead {α : Type} (s : Option String) (hts : (ahead ts).token.closes)
    (f : Option String → Parse α) :
    (takeString >>= f) (ahead ((s.map Token.string).toList ++ ts)) = f s (ahead ts) := by
  cases s with
  | none =>
      rw [takeString, bind_assoc, run_peek_bind, Option.map_none, Option.toList_none,
        List.nil_append]
      cases htoken : (ahead ts).token with
      | string s => exact absurd htoken (ne_of_closes hts rfl)
      | _ => rfl
  | some s => cases ts <;> rfl

theorem parseParam_ahead (p : Param) (hn : 8 * p.tokens.length ≤ n)
    (hts : (ahead ts).token.closes) :
    parseParam n (ahead (p.tokens ++ ts)) = .ok (p.written, ahead ts) := by
  simp only [Param.tokens, List.length_append, List.length_cons] at hn
  -- what may follow the type is neither of the signs looked for before it
  have hstring (t : Token) (ht : t.closes = false) (hs : ∀ s, t ≠ .string s) :
      (ahead ((p.description.map Token.string).toList ++ ts)).token ≠ t := by
    cases p.description with
    | none => exact ne_of_closes hts ht
    | some s => exact (hs s).symm
  have hquestion (t : Token) (ht : t.closes = false) (hs : ∀ s, t ≠ .string s)
      (hq : t ≠ .mark .question) : (ahead (ifPresent p.optional (.mark .question) ++
        ((p.description.map Token.string).toList ++ ts))).token ≠ t := by
    cases p.optional with
    | false => exact hstring t ht hs
    | true => exact hq.symm
  have hless : (ahead (ifPresent p.plural (.mark .ellipsis) ++
      (ifPresent p.optional (.mark .question) ++
        ((p.description.map Token.string).toList ++ ts)))).token ≠ .mark .less := by
    cases p.plural with
    | false => exact hquestion _ rfl nofun nofun
    | true => exact nofun
  simp only [Param.tokens, List.append_assoc, List.cons_append]
  rw [parseParam, run_eat_ifPresent p.output (by simp), run_expectIdent_ahead]
  dsimp only
  rw [run_expectMark_ahead, run_bind_of_ok (parseType_ahead p.type (by omega) hless),
    run_eat_ifPresent p.plural (hquestion (.mark .ellipsis) rfl nofun nofun),
    run_eat_ifPresent p.optional (hstring (.mark .question) rfl nofun), run_takeString_ahead _ hts]
  rfl

theorem parseParams_ahead : ∀ (params : List Param) {n : Nat} {ts : List Token},
    8 * (Param.listTokens params).length + 1 ≤ n →
      parseParams n (ahead (Param.listTokens params ++ .mark .rightParen :: ts)) =
        .ok (params.map Param.written, ahead (.mark .rightParen :: ts))
  | [], n + 1, ts, _ => by
      rw [parseParams]
      rfl
  | [p], n + 1, ts, hn => by
      have hopen : (ahead (p.tokens ++ .mark .rightParen :: ts)).token ≠ .mark .rightParen := by
        cases h : p.output <;> simp [Param.tokens, ifPresent, h]
      simp only [Param.listTokens] at hn
      have hparam : parseParam n (ahead (p.tokens ++ .mark .rightParen :: ts)) = _ :=
        parseParam_ahead p (by omega) rfl
      rw [Param.listTokens, parseParams, run_peek_bind, if_neg hopen, run_bind_of_ok hparam]
      rfl
  | p :: q :: rest, n + 1, ts, hn => by
      simp only [Param.listTokens, List.length_append, List.length_cons] at hn
      have hparam : parseParam n (ahead (p.tokens ++ .mark .comma ::
          (Param.listTokens (q :: rest) ++ .mark .rightParen :: ts))) = _ :=
        parseParam_ahead p (by omega) rfl
      have hopen : (ahead (p.tokens ++ .mark .comma :: (Param.listTokens (q :: rest) ++
          .mark .rightParen :: ts))).token ≠ .mark .rightParen := by
        cases h : p.output <;> simp [Param.tokens, ifPresent, h]
      have hrest : parseParams n (ahead (Param.listTokens (q :: rest) ++ .mark .rightParen :: ts)) =
          _ := parseParams_ahead (q :: rest) (by omega)
      rw [Param.listTokens, List.append_assoc, List.cons_append, parseParams, run_peek_bind,
        if_neg hopen, run_bind_of_ok hparam, run_peek_bind, if_neg (by simp),
        run_expectMark_ahead, run_bind_of_ok hrest]
      · rfl
      · exact List.cons_ne_nil q rest

theorem parseStmt_ahead (style : Style) {s : Stmt} (hs : s.InSource)
    (hn : 8 * (s.tokens style).length ≤ n) :
    parseStmt [] n (ahead (s.tokens style ++ ts)) = .ok (s.written, ahead ts) := by
  cases s with
  | var d =>
      have hstorage : (storageOf? (ahead ((Stmt.var d).tokens style ++ ts)).token).isSome := by
        rw [Stmt.tokens, VarDef.tokens, List.cons_append, Cursor.token_ahead,
          storageOf?_token hs]
        rfl
      rw [parseStmt, run_peek_bind, if_pos hstorage]
      exact run_bind_of_ok (parseVarDef_ahead style d hs nofun hn)
  | expr e =>
      simp only [Stmt.tokens, List.length_append, List.length_cons] at hn
      rw [Stmt.tokens, List.append_assoc, List.cons_append, List.nil_append]
      have hexpr : parseExpr [] n (ahead (style.outer (e.tokens style) ++ .mark .semicolon :: ts)) =
          _ := parseExpr_outer style e (by omega) rfl
      have hstatement : e.written.isStatement := by
        cases e <;> first | rfl | exact hs
      rw [parseStmt, run_peek_bind, (opens_outer style e _).1, if_neg (by simp), run_spanHere_bind,
        run_bind_of_ok hexpr, if_pos hstatement, run_expectMark_ahead]
      rfl

theorem parseBody_step {c d : Cursor} {stmt : Stmt} (hclose : c.token ≠ .mark .rightBrace)
    (heof : c.token ≠ .eof) (h : parseStmt [] n c = .ok (stmt, d)) :
    parseBody [] (n + 1) c = (do
      let stmts ← parseBody [] n
      return stmt :: stmts : Parse (List Stmt)) d := by
  rw [parseBody, run_peek_bind]
  cases htoken : c.token with
  | mark m =>
      cases m with
      | rightBrace => exact absurd htoken hclose
      | _ => exact run_bind_of_ok h
  | eof => exact absurd htoken heof
  | _ => exact run_bind_of_ok h

theorem opens_stmt (style : Style) (s : Stmt) (ts : List Token) :
    (ahead (s.tokens style ++ ts)).token.closes = false ∧
      (ahead (s.tokens style ++ ts)).token ≠ .eof := by
  cases s with
  | var d =>
      rw [Stmt.tokens, VarDef.tokens, List.cons_append, Cursor.token_ahead]
      cases d.storage <;> exact ⟨rfl, nofun⟩
  | expr e =>
      obtain ⟨-, -, heof, hcloses⟩ := opens_outer style e (.mark .semicolon :: ts)
      rw [Stmt.tokens, List.append_assoc]
      exact ⟨hcloses, heof⟩

theorem parseBody_ahead (style : Style) : ∀ (body : List Stmt), (∀ s ∈ body, s.InSource) →
    ∀ {n : Nat} {ts : List Token}, 8 * (body.flatMap (Stmt.tokens style)).length + 1 ≤ n →
      parseBody [] n (ahead (body.flatMap (Stmt.tokens style) ++ .mark .rightBrace :: ts)) =
        .ok (body.map Stmt.written, ahead (.mark .rightBrace :: ts))
  | [], _, n + 1, ts, _ => by
      rw [parseBody]
      rfl
  | s :: rest, h, n + 1, ts, hn => by
      rw [List.forall_mem_cons] at h
      rw [List.flatMap_cons, List.length_append] at hn
      have hlength : (s.tokens style).length ≠ 0 := by
        cases s <;> simp [Stmt.tokens, VarDef.tokens]
      obtain ⟨hcloses, heof⟩ := opens_stmt style s
        (rest.flatMap (Stmt.tokens style) ++ .mark .rightBrace :: ts)
      have hstmt : parseStmt [] n (ahead (s.tokens style ++
          (rest.flatMap (Stmt.tokens style) ++ .mark .rightBrace :: ts))) = _ :=
        parseStmt_ahead style h.1 (by omega)
      have hrest : parseBody [] n (ahead (rest.flatMap (Stmt.tokens style) ++
          .mark .rightBrace :: ts)) = _ :=
        parseBody_ahead style rest h.2 (by omega)
      rw [List.flatMap_cons, List.append_assoc, parseBody_step _ heof hstmt, run_bind_of_ok hrest]
      · rfl
      · intro hbrace
        rw [hbrace] at hcloses
        cases hcloses

theorem parseFunc_ahead (style : Style) (d : FuncDef) (hd : ∀ s ∈ d.body.getD [], s.InSource)
    (hn : 8 * (d.tokens style).length ≤ n) :
    parseFunc [] n (ahead (d.tokens style ++ ts)) = .ok (d.written, ahead ts) := by
  obtain ⟨name, params, body, span⟩ := d
  have hparams (us : List Token) (hn : 8 * (Param.listTokens params).length + 1 ≤ n) :
      parseParams n (ahead (Param.listTokens params ++ .mark .rightParen :: us)) = _ :=
    parseParams_ahead params hn
  cases body with
  | none =>
      simp only [FuncDef.tokens, group, List.length_append, List.length_cons] at hn
      simp only [FuncDef.tokens, group, List.cons_append, List.append_assoc, List.nil_append]
      rw [parseFunc, run_expect_ahead, run_expectIdent_ahead]
      dsimp only
      rw [run_expectMark_ahead, run_bind_of_ok (hparams _ (by omega)), run_expectMark_ahead,
        run_eat_ahead]
      rfl
  | some stmts =>
      simp only [FuncDef.tokens, group, List.length_append, List.length_cons] at hn
      simp only [FuncDef.tokens, group, List.cons_append, List.append_assoc, List.nil_append]
      rw [parseFunc, run_expect_ahead, run_expectIdent_ahead]
      dsimp only
      rw [run_expectMark_ahead, run_bind_of_ok (hparams _ (by omega)), run_expectMark_ahead,
        run_eat_other (by simp), if_neg Bool.false_ne_true, run_expectMark_ahead,
        run_bind_of_ok (parseBody_ahead style stmts hd (by omega)), run_expectMark_ahead]
      rfl

theorem parseDefinitions_ahead (style : Style) : ∀ (ds : List Definition),
    (∀ d ∈ ds, d.InSource) → ∀ {n : Nat},
    8 * (ds.flatMap (Definition.tokens style)).length + 1 ≤ n →
      parseDefinitions [] n (ahead (ds.flatMap (Definition.tokens style))) =
        .ok (ds.map Definition.written, ahead [])
  | [], _, n + 1, _ => rfl
  | .var d :: rest, h, n + 1, hn => by
      rw [List.forall_mem_cons] at h
      obtain ⟨⟨hstorage, hvalue⟩, hrest⟩ := h
      rw [List.flatMap_cons, List.length_append, Definition.tokens] at hn
      have hlength : (d.tokens style).length ≠ 0 := by simp [VarDef.tokens]
      have hline : d.storage ≠ .line := by
        rintro hline
        rcases hstorage with h | h <;> rw [hline] at h <;> cases h
      have hvar : parseVarDef [] false n (ahead (d.tokens style ++
          rest.flatMap (Definition.tokens style))) = _ :=
        parseVarDef_ahead style d hline (fun _ => hvalue) (by omega)
      have hmore := parseDefinitions_ahead style rest hrest (show _ ≤ n by omega)
      have hrun : (do
          let d ← parseVarDef [] false n
          return .var d :: (← parseDefinitions [] n) : Parse (List Definition))
            (ahead (d.tokens style ++ rest.flatMap (Definition.tokens style))) =
              .ok (.var d.written :: rest.map Definition.written, ahead []) := by
        rw [run_bind_of_ok hvar, run_bind_of_ok hmore]
        rfl
      rw [List.flatMap_cons, Definition.tokens, List.map_cons, Definition.written, ← hrun,
        parseDefinitions, run_peek_bind, VarDef.tokens, List.cons_append, Cursor.token_ahead]
      rcases hstorage with h | h <;> rw [h] <;> rfl
  | .func d :: rest, h, n + 1, hn => by
      rw [List.forall_mem_cons] at h
      rw [List.flatMap_cons, List.length_append, Definition.tokens] at hn
      have hlength : (d.tokens style).length ≠ 0 := by simp [FuncDef.tokens]
      have hfunc : parseFunc [] n (ahead (d.tokens style ++
          rest.flatMap (Definition.tokens style))) = _ :=
        parseFunc_ahead style d h.1 (by omega)
      have hmore := parseDefinitions_ahead style rest h.2 (show _ ≤ n by omega)
      rw [List.flatMap_cons, Definition.tokens, parseDefinitions, run_peek_bind]
      have htoken : (ahead (d.tokens style ++ rest.flatMap (Definition.tokens style))).token =
        .keyword .func := rfl
      simp only [htoken]
      rw [run_bind_of_ok hfunc, run_bind_of_ok hmore]
      rfl

end

end Parser

/-- The parser reads back every program from its tokens, wherever they stand, up to places. Entries
that a type records are not written; where none are, the definitions are the same. -/
theorem parse_tokens (style : Style) {definitions : List Definition}
    (h : ∀ d ∈ definitions, d.InSource) {lexemes : List Lexeme}
    (htokens : lexemes.map Lexeme.token = definitions.flatMap (Definition.tokens style) ++ [.eof]) :
    ∃ definitions', parse lexemes = .ok definitions' ∧
      definitions'.map Definition.bare = definitions.map Definition.written ∧
      ((∀ d ∈ definitions, ∀ t ∈ d.types, t.written = t) →
        definitions'.map Definition.bare = definitions.map Definition.bare) := by
  have hbare : lexemes.map Lexeme.bare =
      (definitions.flatMap (Definition.tokens style) ++ [Token.eof]).map
        fun t => ⟨t, .nowhere⟩ := by
    rw [← htokens, List.map_map]
    rfl
  have hparse : parse (lexemes.map Lexeme.bare) = .ok (definitions.map Definition.written) := by
    have hrun := Parser.parseDefinitions_ahead style definitions h
      (n := Parser.bound (lexemes.map Lexeme.bare)) (by
        rw [Parser.bound, hbare, List.length_map, List.length_append]
        omega)
    rw [parse]
    refine bind_eq_ok.mpr ⟨(definitions.map Definition.written, Cursor.ahead []), ?_, rfl⟩
    rw [hbare] at hrun ⊢
    exact hrun
  have hsame := parse_bare lexemes
  rw [hparse] at hsame
  cases hok : parse lexemes with
  | error e =>
      rw [hok] at hsame
      cases hsame
  | ok ds =>
      rw [hok] at hsame
      cases hsame with
      | ok heq =>
          refine ⟨ds, rfl, heq.symm, fun hplain => ?_⟩
          rw [← heq]
          exact List.map_congr_left fun d hd => Definition.written_eq_bare (hplain d hd)

/-- An out parameter of a nested type, a declaration, a cast, indices, a dictionary, a vector with
a negative zero, a targeted action and a quoted name. -/
theorem parse_tokens_nested :
    let style : Style := ⟨(· = "the name"), false⟩
    let counts : ValueType := .declared .dict [.declared .list [.declared .num []]]
    let x : Binary64 := .ofPattern false 1
    let one : Expr := .number default x
    let entry : Expr := .index default (.variable default "the name") (.str default "k")
    let first : Param := ⟨"a", counts, true, true, true, some "all"⟩
    let second : Param := ⟨"b", .declared .any [], false, false, false, none⟩
    let body : List Stmt := [
      .var ⟨.local, "the name", counts, some (.dict default [("k", .list default [one])]), default⟩,
      .expr (.setIndex default entry one
        (.cast default counts (.binary default .pow default entry
          (.vector default x x (.zero true))))),
      .expr (.action default ⟨"Say", "GAME ACTION", some .victim⟩ [.call default "g" [one, one]])]
    let definitions : List Definition := [
      .var ⟨.save, "score", .declared .num [], none, default⟩,
      .func ⟨"g", [first, second], none, default⟩,
      .func ⟨"f", [], some body, default⟩]
    let lexemes := (definitions.flatMap (Definition.tokens style) ++ [Token.eof]).map
      fun t => Lexeme.mk t default
    (∀ d ∈ definitions, d.InSource) ∧ (∀ d ∈ definitions, ∀ t ∈ d.types, t.written = t) ∧
      ∃ definitions', parse lexemes = .ok definitions' ∧
        definitions'.map Definition.bare = definitions.map Definition.bare := by
  intro style counts x one entry first second body definitions lexemes
  have hsource : ∀ d ∈ definitions, d.InSource := by
    simp [definitions, body, Definition.InSource, Stmt.InSource, Expr.isStatement]
  have htypes : ∀ d ∈ definitions, ∀ t ∈ d.types, t.written = t := by
    simp [definitions, body, counts, entry, one, first, second, Definition.types, VarDef.types,
      FuncDef.types, Stmt.types, Expr.types, Expr.typesItems, Expr.typesEntries,
      ValueType.written, ValueType.writtenAll]
  have htokens : lexemes.map Lexeme.token =
      definitions.flatMap (Definition.tokens style) ++ [.eof] := by
    rw [List.map_map]
    exact List.map_id _
  obtain ⟨definitions', hok, -, hsame⟩ := parse_tokens style hsource htokens
  exact ⟨hsource, htypes, definitions', hok, hsame htypes⟩

end DiamondScript
