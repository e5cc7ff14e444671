import DiamondScript.Proofs.ReadBack
import DiamondScript.Proofs.Unfolding

namespace DiamondScript

namespace ActionRef

theorem ofTokens?_tokens (ref : ActionRef) : ofTokens? ref.tokens = some ref := by
  obtain ⟨action, category, _ | target⟩ := ref <;> rfl

theorem tokens_of_ofTokens? {ts : List Token} {ref : ActionRef} (h : ofTokens? ts = some ref) :
    ts = ref.tokens := by
  unfold ofTokens? at h
  split at h
  all_goals cases h
  all_goals rfl

theorem semicolon_not_mem_tokens (ref : ActionRef) : .mark .semicolon ∉ ref.tokens := by
  obtain ⟨action, category, _ | target⟩ := ref <;> simp [tokens]

end ActionRef

namespace Parser

open Cursor (ahead)

theorem bare_ahead (ts : List Token) : (ahead ts).bare = ahead ts := by
  simp [ahead, Cursor.bare, Lexeme.bare]

section

variable {constants : Constants} {σ : Abbreviations} {E : List Token → List Token}
  {n : Nat} {ts us : List Token} {k : Constant}

theorem Agrees.bare (h : Agrees constants σ) : constants.bare = constants := by
  induction h with
  | nil => rfl
  | @cons c a constants σ hhead _ ih =>
      have hbare : c.2.bare = c.2 := by
        obtain ⟨x, k⟩ := c
        obtain ⟨y, a⟩ := a
        obtain ⟨-, hstands⟩ := hhead
        cases hstands with
        | expr bare => exact congrArg Constant.expr bare
        | action => rfl
      rw [Constants.bare, List.map_cons, hbare]
      exact congrArg _ ih

theorem parseConstantValue_eq_ok {d : Cursor}
    (h : parseConstantValue constants n (ahead ts) = .ok (k, d)) :
    (∃ ref us args, ts = ref.tokens ++ .mark .leftParen :: us ∧
      parseArgs constants n (ahead (.mark .leftParen :: us)) = .ok (args, d) ∧
      k = .expr (.action ⟨0, d.lastEnd⟩ ref args)) ∨
    (∃ ref us, ts = ref.tokens ++ us ∧ d = ahead us ∧ k = .action ref) ∨
    ∃ e, parseExpr constants n (ahead ts) = .ok (e, d) ∧ k = .expr e := by
  have haction (h : (do
      let ref ← parseActionRef
      if (← peek) = .mark .leftParen then
        let args ← parseArgs constants n
        return .expr (.action ⟨0, ← lastEnd⟩ ref args)
      else return .action ref : Parse Constant) (ahead ts) = .ok (k, d)) :
      (∃ ref us args, ts = ref.tokens ++ .mark .leftParen :: us ∧
        parseArgs constants n (ahead (.mark .leftParen :: us)) = .ok (args, d) ∧
        k = .expr (.action ⟨0, d.lastEnd⟩ ref args)) ∨
      ∃ ref us, ts = ref.tokens ++ us ∧ d = ahead us ∧ k = .action ref := by
    obtain ⟨ref, us, rfl, h₁⟩ := parseActionRef_bind_eq_ok h
    rw [run_peek_bind] at h₁
    split at h₁
    case isTrue htoken =>
      obtain ⟨vs, rfl⟩ := exists_of_token htoken (by simp)
      obtain ⟨args, d', hargs, h₂⟩ := run_bind_eq_ok.mp h₁
      cases h₂
      exact .inl ⟨ref, vs, args, rfl, hargs, rfl⟩
    case isFalse =>
      cases h₁
      exact .inr ⟨ref, us, rfl, rfl, rfl⟩
  have hexpr (h : (do return .expr (← parseExpr constants n) : Parse Constant) (ahead ts) =
      .ok (k, d)) : ∃ e, parseExpr constants n (ahead ts) = .ok (e, d) ∧ k = .expr e := by
    obtain ⟨e, d', he, h₁⟩ := run_bind_eq_ok.mp h
    cases h₁
    exact ⟨e, he, rfl⟩
  rw [parseConstantValue, run_spanHere_bind, run_peek_bind] at h
  cases htoken : (ahead ts).token with
  | target t =>
      simp only [htoken, Cursor.span_ahead] at h
      exact (haction h).imp_right .inl
  | keyword word =>
      cases word with
      | codeblock =>
          simp only [htoken, Cursor.span_ahead] at h
          exact (haction h).imp_right .inl
      | _ =>
          simp only [htoken] at h
          exact .inr (.inr (hexpr h))
  | _ =>
      simp only [htoken] at h
      exact .inr (.inr (hexpr h))

theorem parseConstantValue_action (ref : ActionRef) (us : List Token) :
    parseConstantValue constants n (ahead (ref.tokens ++ .mark .semicolon :: us)) =
      .ok (.action ref, ahead (.mark .semicolon :: us)) := by
  obtain ⟨action, category, _ | target⟩ := ref <;>
    simp [parseConstantValue, ActionRef.tokens, parseActionRef, takeTarget]

/-- The value of a constant is read from its expansion as well, wherever that is put. -/
theorem yields_constant (hE : Expands σ E) (hσ : Agrees constants σ) {e : Expr}
    (h : parseConstantValue constants n (ahead ts) =
      .ok (.expr e, ahead (.mark .semicolon :: us)))
    (hmeets : Meets E (.mark .semicolon :: us)) :
    Yields (parseExpr []) 0 8 (E ts) (E (.mark .semicolon :: us)) e := by
  have hcloses : (ahead (E (.mark .semicolon :: us))).token.closes := by
    rcases hmeets.token with htoken | ⟨-, htoken⟩
    · rw [htoken]
      rfl
    · rw [htoken]
      rfl
  rcases parseConstantValue_eq_ok h with ⟨ref, vs, args, rfl, hargs, hk⟩ | ⟨_, _, -, -, hk⟩ |
    ⟨_, hexpr, hk⟩
  · cases hk
    obtain ⟨ws, hws, hcarries⟩ := resumes_parseArgs hE hσ n _ args _ hargs
    cases ahead_inj hws
    obtain ⟨-, hyields⟩ := hcarries hmeets
    have hle := hyields.shorter
    have hpos : 0 < ref.tokens.length := by simp [ActionRef.tokens]
    rw [expands_action hE]
    constructor
    · rw [List.length_append]
      omega
    · intro m hm
      rw [List.length_append] at hm
      obtain ⟨k, rfl⟩ : ∃ k, m = k + 4 := ⟨m - 4, by omega⟩
      refine parseExpr_closed hcloses ?_
      rw [parsePostfix, run_bind_of_ok (parsePrimary_action ref _), run_peek_bind]
      dsimp only
      rw [if_pos (by rw [hE.plain rfl]; rfl), run_bind_of_ok (hyields.run (k + 1) (by omega)),
        run_lastEnd_bind]
      exact parseIndices_closed hcloses
  · cases hk
  · cases hk
    obtain ⟨ws, hws, hcarries⟩ := carries_parseExpr hE hσ n ts e _ hexpr
    cases ahead_inj hws
    exact (hcarries hmeets).2.mono (by omega) (by omega)

theorem ahead_of_parseConstantValue (hσ : Agrees constants σ) {d : Cursor}
    (h : parseConstantValue constants n (ahead ts) = .ok (k, d)) : ∃ us, d = ahead us := by
  rcases parseConstantValue_eq_ok h with ⟨_, _, _, -, hargs, -⟩ | ⟨_, us, -, hd, -⟩ | ⟨_, hexpr, -⟩
  · obtain ⟨us, hd, -⟩ := resumes_parseArgs (expands_expand σ) hσ n _ _ _ hargs
    exact ⟨us, hd⟩
  · exact ⟨us, hd⟩
  · obtain ⟨us, hd, -⟩ := carries_parseExpr (expands_expand σ) hσ n _ _ _ hexpr
    exact ⟨us, hd⟩

theorem stands_of_parseConstantValue (hσ : Agrees constants σ)
    (h : parseConstantValue constants n (ahead ts) = .ok (k, ahead (.mark .semicolon :: us))) :
    ∃ value, ts = value ++ .mark .semicolon :: us ∧ .mark .semicolon ∉ value ∧
      Stands k (σ.abbreviate value) := by
  cases k with
  | action ref =>
      rcases parseConstantValue_eq_ok h with ⟨_, _, _, -, -, hk⟩ | ⟨_, vs, hts, hvs, hk⟩ |
        ⟨_, -, hk⟩
      · cases hk
      · cases hk
        cases ahead_inj hvs
        refine ⟨ref.tokens, hts, ref.semicolon_not_mem_tokens, ?_⟩
        rw [Abbreviations.abbreviate, ref.ofTokens?_tokens]
        exact .action ref
      · cases hk
  | expr e =>
      have hyields (R : List Token → List Token) :
          Yields (parseExpr []) 0 8 (expandValue σ (.mark .rightParen :: R ·) ts)
            (.mark .rightParen :: R (.mark .semicolon :: us)) e := by
        have hsemicolon := expandValue_semicolon σ (.mark .rightParen :: R ·) us
        rw [← hsemicolon]
        exact yields_constant (expands_expandValue σ _) hσ h
          ⟨by simp, .inr ⟨rfl, congrArg (fun ts => (ahead ts).token) hsemicolon⟩⟩
      have hvalue : ts = ts.takeWhile (· ≠ .mark .semicolon) ++ .mark .semicolon :: us := by
        -- Behind the value there may be anything where it is put, so also what is behind it here.
        have hsame := ((hyields id).run _ (Nat.le_refl _)).symm.trans
          ((hyields fun _ => ts.dropWhile (· ≠ .mark .semicolon)).run _ (Nat.le_refl _))
        have hdrop : .mark .semicolon :: us = ts.dropWhile (· ≠ .mark .semicolon) :=
          List.tail_eq_of_cons_eq (ahead_inj (congrArg Prod.snd (Except.ok.inj hsame)))
        rw [hdrop, List.takeWhile_append_dropWhile]
      refine ⟨_, hvalue, fun hmem => ?_, ?_⟩
      · simpa using List.all_eq_true.mp List.all_takeWhile _ hmem
      · have hbare : e.bare = e := by
          have hsame := follows_parseConstantValue constants n (ahead ts)
          rw [hσ.bare, bare_ahead, h] at hsame
          cases hsame with
          | ok hk => exact (Constant.expr.inj (congrArg Prod.fst hk)).symm
        cases haction : ActionRef.ofTokens? (ts.takeWhile (· ≠ .mark .semicolon)) with
        | some ref =>
            rw [hvalue, ActionRef.tokens_of_ofTokens? haction, parseConstantValue_action] at h
            cases h
        | none =>
            rw [Abbreviations.abbreviate, haction]
            exact .expr hbare fun vs => hyields fun _ => vs

end

section

variable {β : Type} {ts : List Token} {r : β × Cursor}

theorem exists_of_storageOf? {storage : Storage}
    (h : storageOf? (ahead ts).token = some storage) : ∃ t us, ts = t :: us ∧ t.plain := by
  cases ts with
  | nil => cases h
  | cons t us =>
      refine ⟨t, us, rfl, ?_⟩
      rw [Cursor.token_ahead] at h
      unfold storageOf? at h
      split at h
      case h_5 => cases h
      all_goals rfl

theorem expectVarName_bind_eq_ok {f : String → Parse β}
    (h : (expectVarName >>= f) (ahead ts) = .ok r) :
    ∃ t name us, t.Names name ∧ ts = t :: us ∧ f name (ahead us) = .ok r := by
  cases ts with
  | nil => cases h
  | cons t us =>
      cases t with
      | ident name | varName name =>
          rw [expectVarName, bind_assoc, run_peek_bind] at h
          simp only [Cursor.token_ahead, bind_assoc, run_advance_bind, Cursor.advance_ahead,
            pure_bind] at h
          exact ⟨_, name, us, by simp [Token.Names], rfl, h⟩
      | _ => cases h

theorem run_expectVarName {t : Token} {name : String} (ht : t.Names name) (f : String → Parse β) :
    (expectVarName >>= f) (ahead (t :: ts)) = f name (ahead ts) := by
  rcases ht with rfl | rfl <;> cases ts <;> rfl

variable {σ : Abbreviations} {E : List Token → List Token} (hE : Expands σ E)

include hE

theorem resumes_eat {t : Token} (ht : t.plain)
    (hne : t ≠ .eof ∧ t ≠ .mark .colon ∧ t ≠ .mark .rightParen) :
    Resumes E (eat t) (fun _ => eat t) 0 8 := by
  have heat : eat t = (do if ← eat t then return true else return false) := by
    rw [← bind_pure (eat t), bind_assoc]
    refine bind_congr fun present => ?_
    cases present <;> rfl
  rw [heat]
  exact .mono (by omega) (by omega) <| simulates_eat (hE.plain ht) hne
    (simulates_return fun _ => rfl) (simulates_return fun _ => rfl)

theorem resumes_takeString : Resumes E takeString (fun _ => takeString) 0 8 := by
  intro ts s d h
  rw [takeString, run_peek_bind] at h
  cases htoken : (ahead ts).token with
  | string s =>
      obtain ⟨us, rfl⟩ := exists_of_token htoken (by simp)
      simp only [Cursor.token_ahead, run_advance_bind, Cursor.advance_ahead] at h
      cases h
      refine ⟨us, rfl, fun _ => ⟨meets_cons (hE.plain rfl us) (by simp), ?_⟩⟩
      rw [hE.plain rfl]
      exact (yields_tokens (List.cons_ne_nil _ []) (by omega) fun m => by simp [takeString]).mono
        (Nat.zero_le 1) (Nat.le_refl 8)
  | _ =>
      simp only [htoken] at h
      cases h
      refine ⟨ts, rfl, fun hmeets => ⟨hmeets, Nat.le_refl _, fun m _ => ?_⟩⟩
      rcases hmeets.token with h | ⟨-, h⟩
      · simp [takeString, h, htoken]
      · simp [takeString, h]

end

theorem token_of_parseStmt {m : Nat} {c : Cursor} {r : Stmt × Cursor}
    (h : parseStmt [] m c = .ok r) : c.token ≠ .mark .rightBrace ∧ c.token ≠ .eof := by
  rw [parseStmt, run_peek_bind] at h
  split at h
  case isTrue hstorage =>
    constructor
    all_goals
      intro htoken
      rw [htoken] at hstorage
      cases hstorage
  case isFalse =>
    rw [run_spanHere_bind] at h
    obtain ⟨_, _, hexpr, -⟩ := run_bind_eq_ok.mp h
    have hopens := opens_of_parseExpr hexpr
    exact ⟨ne_of_opens hopens rfl, hopens.2.2.1⟩

section

variable {α : Type} (σ : Abbreviations)

/-- A phrase with its own end is read from its expansion as well, whatever follows. -/
abbrev Finishes : Parse α → (Nat → Parse α) → Nat → Nat → Prop :=
  Simulates (expand σ) (fun _ => True) (fun _ => True)

variable {G F : List Token → Prop} {k s : Nat}

theorem simulates_semicolon {what : String} {p : Parse α} {q : Nat → Parse α}
    (h : Simulates (expand σ) G F p q k s) :
    Simulates (expand σ) (Meets (expand σ)) F (expectMark .semicolon what >>= fun _ => p)
      (fun m => expectMark .semicolon what >>= fun _ => q m) (k + 1) (s + 8) :=
  have hself (ts : List Token) := expand_plain (σ := σ) ts (.inr rfl)
  simulates_expect (by simp) hself (fun ts => meets_cons (hself ts) (by simp)) h

def concluded (start : Span) (e : Expr) : Parse Stmt := do
  if e.isStatement then
    let _ ← expectMark .semicolon "';' after statement"
    return .expr e
  else failAt .statementExpected start

theorem simulates_concluded (e : Expr) :
    Simulates (expand σ) (Meets (expand σ)) (fun _ => True) (concluded .nowhere e)
      (fun _ => concluded .nowhere e) 1 8 := by
  unfold concluded
  split
  case isTrue =>
    exact .mono (by omega) (by omega) <| simulates_semicolon σ (simulates_return fun _ => rfl)
  case isFalse => exact fun ts a d h => by cases h

theorem simulates_declared {what what' : String} {f : String × Span → Parse α}
    {g : String × Span → Nat → Parse α}
    (h : ∀ name, Simulates (expand σ) G F (f (name, .nowhere)) (g (name, .nowhere)) k s) :
    Simulates (expand σ) (Meets (expand σ)) F
      (expectIdent what >>= fun name => expectMark .colon what' >>= fun _ => f name)
      (fun m => expectIdent what >>= fun name => expectMark .colon what' >>= fun _ => g name m)
      (k + 1) (s + 8) := by
  intro ts a d hrun
  obtain ⟨name, us, rfl, h₁⟩ := expectIdent_bind_eq_ok hrun
  obtain ⟨vs, rfl, h₂⟩ := expectMark_bind_eq_ok h₁
  obtain ⟨ws, hd, hws⟩ := h name vs a d h₂
  have hself := expand_declared (σ := σ) vs (.inl rfl : (Token.ident name).Names name)
  refine ⟨ws, hd, fun hF => ⟨⟨by simp, .inl (by rw [hself]; rfl)⟩, ?_⟩⟩
  rw [hself]
  refine (hws hF).2.append [.ident name, .mark .colon] (by simp) fun m => ?_
  simp only [List.cons_append, List.nil_append]
  rw [run_expectIdent_ahead, run_expectMark_ahead]

end

section

variable {constants : Constants} {σ : Abbreviations} (hσ : Agrees constants σ)

include hσ

theorem resumes_parseInitial {E : List Token → List Token} (hE : Expands σ E) (allowed : Bool)
    (n : Nat) : Resumes E (parseInitial constants allowed n) (parseInitial [] allowed) 0 8 := by
  unfold parseInitial
  cases allowed with
  | false =>
      simp only [Bool.false_eq_true, if_false]
      exact simulates_return fun _ => rfl
  | true =>
      simp only [if_true]
      exact .mono (by omega) (by omega) <| simulates_eat (hE.plain rfl) (by simp)
        ((carries_parseExpr hE hσ n).andThen fun e => simulates_return fun _ => rfl)
        (simulates_return fun _ => rfl)

theorem finishes_parseVarDef (withValue : Bool) (n : Nat) :
    Finishes σ (parseVarDef constants withValue n) (parseVarDef [] withValue) 1 8 := by
  have hE := expands_expand σ
  intro ts v d h
  rw [parseVarDef, run_spanHere_bind, run_peek_bind] at h
  cases hstorage : storageOf? (ahead ts).token with
  | none =>
      rw [hstorage] at h
      cases h
  | some storage =>
      obtain ⟨word, us, rfl, hword⟩ := exists_of_storageOf? hstorage
      simp only [hstorage, run_advance_bind, Cursor.advance_ahead, Cursor.span_ahead] at h
      obtain ⟨t, name, vs, ht, rfl, h₁⟩ := expectVarName_bind_eq_ok h
      obtain ⟨ws, rfl, h₂⟩ := expectMark_bind_eq_ok h₁
      obtain ⟨xs, hd, hxs⟩ := ((carries_parseType hE n).andThen fun type =>
        (resumes_parseInitial hσ hE withValue n).andThen fun value =>
          simulates_semicolon σ simulates_returnEnd) ws v d h₂
      refine ⟨xs, hd, fun _ => ⟨trivial, ?_⟩⟩
      rw [hE.plain hword, expand_declared _ ht]
      refine ((hxs trivial).2.append [word, t, .mark .colon] (by simp) fun m => ?_).mono (by omega)
        (by omega)
      rw [Cursor.token_ahead] at hstorage
      simp only [List.cons_append, List.nil_append]
      rw [parseVarDef, run_spanHere_bind, run_peek_bind, Cursor.token_ahead]
      simp only [hstorage, run_advance_bind, Cursor.advance_ahead, Cursor.span_ahead]
      rw [run_expectVarName ht, run_expectMark_ahead]

theorem finishes_parseStmt (n : Nat) :
    Finishes σ (parseStmt constants n) (parseStmt []) 1 8 := by
  have hE := expands_expand σ
  intro ts stmt d h
  rw [parseStmt, run_peek_bind] at h
  split at h
  case isTrue hstorage =>
    obtain ⟨us, hd, hus⟩ := ((finishes_parseVarDef hσ true n).andThen fun v =>
      simulates_return fun _ => rfl) ts stmt d h
    refine ⟨us, hd, fun _ => ⟨trivial, ?_⟩⟩
    obtain ⟨storage, hsome⟩ := Option.isSome_iff_exists.mp hstorage
    obtain ⟨t, vs, rfl, ht⟩ := exists_of_storageOf? hsome
    have hhead : (ahead (expand σ (t :: vs))).token = t := by
      rw [hE.plain ht]
      rfl
    rw [Cursor.token_ahead] at hstorage
    refine ((hus trivial).2.mono (by omega) (by omega)).imp fun m hm => ?_
    rwa [parseStmt, run_peek_bind, hhead, if_pos hstorage]
  case isFalse =>
    rw [run_spanHere_bind, Cursor.span_ahead] at h
    obtain ⟨us, hd, hus⟩ := ((carries_parseExpr hE hσ n).andThen
      (simulates_concluded σ)) ts stmt d h
    refine ⟨us, hd, fun _ => ⟨trivial, ?_⟩⟩
    refine ((hus trivial).2.mono (by omega) (by omega)).imp fun m hm => ?_
    obtain ⟨_, _, hexpr, -⟩ := run_bind_eq_ok.mp hm
    rwa [parseStmt, run_peek_bind, (opens_of_parseExpr hexpr).1, if_neg (by simp),
      run_spanHere_bind, Cursor.span_ahead]

theorem finishes_parseBody (n : Nat) : Finishes σ (parseBody constants n) (parseBody []) 0 7 := by
  induction n with
  | zero => exact fun ts stmts d h => by cases h
  | succ n ih =>
      refine .succ (by omega) ?_
      intro ts stmts d h
      have hmore (h : (do
          let stmt ← parseStmt constants n
          let stmts ← parseBody constants n
          return stmt :: stmts : Parse (List Stmt)) (ahead ts) = .ok (stmts, d)) :
          ∃ us, d = ahead us ∧ (True → True ∧
            Yields (fun m => parseBody [] (m + 1)) 0 8 (expand σ ts) (expand σ us) stmts) := by
        obtain ⟨us, hd, hus⟩ := ((finishes_parseStmt hσ n).andThen fun stmt =>
          ih.andThen fun stmts => simulates_return fun _ => rfl) ts stmts d h
        refine ⟨us, hd, fun _ => ⟨trivial, ?_⟩⟩
        refine ((hus trivial).2.mono (by omega) (by omega)).imp fun m hm => ?_
        obtain ⟨_, _, hstmt, -⟩ := run_bind_eq_ok.mp hm
        obtain ⟨hbrace, heof⟩ := token_of_parseStmt hstmt
        rw [run_bind_of_ok hstmt] at hm
        rwa [parseBody_step hbrace heof hstmt]
      rw [parseBody, run_peek_bind] at h
      cases htoken : (ahead ts).token with
      | eof =>
          rw [htoken] at h
          cases h
      | mark m =>
          cases m with
          | rightBrace =>
              obtain ⟨us, rfl⟩ := exists_of_token htoken (by simp)
              cases h
              refine ⟨_, rfl, fun _ => ⟨trivial, Nat.le_refl _, fun m _ => ?_⟩⟩
              rw [expand_plain _ (.inl rfl), parseBody]
              rfl
          | _ =>
              simp only [htoken] at h
              exact hmore h
      | _ =>
          simp only [htoken] at h
          exact hmore h

end

section

variable (σ : Abbreviations)

theorem carries_parseParam (n : Nat) : Carries (expand σ) (parseParam n) parseParam 1 8 := by
  have hE := expands_expand σ
  simp only [parseParam]
  refine .mono (by omega) (by omega) (.weaken ((resumes_eat hE rfl (by simp)).andThen fun output =>
    simulates_declared σ fun name => (carries_parseType hE n).andThen fun type =>
      (resumes_eat hE rfl (by simp)).andThen fun plural =>
        (resumes_eat hE rfl (by simp)).andThen fun optional =>
          (resumes_takeString hE).andThen fun description => simulates_return fun _ => rfl))

theorem token_of_parseParam {m : Nat} {ts : List Token} {r : Param × Cursor}
    (h : parseParam m (ahead ts) = .ok r) : (ahead ts).token ≠ .mark .rightParen := by
  rw [parseParam] at h
  rcases eat_bind_eq_ok (by simp) h with ⟨us, rfl, -⟩ | ⟨-, h₁⟩
  · simp
  · obtain ⟨name, us, rfl, -⟩ := expectIdent_bind_eq_ok h₁
    simp

theorem parseParams_succ (n : Nat) : parseParams (n + 1) =
    orNone (separated (parseParam n) .rightParen "',' or ')' after parameter" (parseParams n))
      .rightParen :=
  rfl

theorem carries_parseParams (n : Nat) : Carries (expand σ) (parseParams n) parseParams 0 7 := by
  induction n with
  | zero => exact fun ts params d h => by cases h
  | succ n ih =>
      refine .succ (by omega) ?_
      simp only [parseParams_succ]
      refine .mono (by omega) (by omega) <| carries_orNone (by simp)
        (carries_separated (expands_expand σ) (by simp) (carries_parseParam σ n) ih) fun h => ?_
      obtain ⟨_, _, hparam, -⟩ := run_bind_eq_ok.mp h
      exact token_of_parseParam hparam

end

section

variable {constants : Constants} {σ : Abbreviations}

theorem finishes_parseFunc (hσ : Agrees constants σ) (n : Nat) :
    Finishes σ (parseFunc constants n) (parseFunc []) 1 8 := by
  have hE := expands_expand σ
  intro ts f d h
  rw [parseFunc] at h
  obtain ⟨us, rfl, h₁⟩ := expect_bind_eq_ok (by simp) h
  obtain ⟨name, vs, rfl, h₂⟩ := expectIdent_bind_eq_ok h₁
  obtain ⟨ws, hd, hws⟩ := (simulates_mark hE (by simp)
    ((carries_parseParams σ n).andThen fun params => simulates_mark hE (by simp)
      (simulates_eat (fun ts => expand_plain ts (.inr rfl)) (by simp)
        (simulates_return fun _ => rfl)
        (simulates_mark hE (by simp) ((finishes_parseBody hσ n).andThen fun body =>
          (simulates_mark hE (by simp) (simulates_return fun _ => rfl)).weaken))))) vs f d h₂
  refine ⟨ws, hd, fun _ => ⟨trivial, ?_⟩⟩
  rw [expand_func]
  refine ((hws trivial).2.append [.keyword .func, .ident name] (by simp) fun m => ?_).mono
    (by omega) (by omega)
  simp only [List.cons_append, List.nil_append]
  rw [parseFunc, run_expect_ahead, run_expectIdent_ahead]

theorem parseConst_eq_ok (hσ : Agrees constants σ) {n : Nat} {ts : List Token}
    {constants' : Constants} {d : Cursor}
    (h : parseConst constants n (ahead ts) = .ok (constants', d)) :
    ∃ σ' us, d = ahead us ∧ Agrees constants' σ' ∧ expand σ ts = expand σ' us := by
  rw [parseConst] at h
  obtain ⟨ts₁, rfl, h₁⟩ := expect_bind_eq_ok (by simp) h
  obtain ⟨name, ts₂, rfl, h₂⟩ := expectIdent_bind_eq_ok h₁
  dsimp only at h₂
  obtain ⟨ts₃, rfl, h₃⟩ := expectMark_bind_eq_ok h₂
  obtain ⟨k, d₁, hvalue, h₄⟩ := run_bind_eq_ok.mp h₃
  obtain ⟨ts₄, rfl⟩ := ahead_of_parseConstantValue hσ hvalue
  obtain ⟨us, rfl, h₅⟩ := expectMark_bind_eq_ok h₄
  cases h₅
  obtain ⟨value, rfl, hinside, hstands⟩ := stands_of_parseConstantValue hσ hvalue
  exact ⟨_, us, rfl, .cons ⟨rfl, hstands⟩ hσ, expand_const us hinside⟩

/-- The definitions read from a text are read from its expansion as well, and without constants. -/
def ReadsExpanded (constants : Constants) (σ : Abbreviations) (n : Nat) : Prop :=
  ∀ {ts : List Token} {definitions : List Definition} {d : Cursor},
    parseDefinitions constants n (ahead ts) = .ok (definitions, d) →
    ∀ {m : Nat}, 8 * (expand σ ts).length + 1 ≤ m →
      ∃ d', parseDefinitions [] m (ahead (expand σ ts)) = .ok (definitions, d')

theorem ReadsExpanded.cons {α : Type} {p : Parse α} {q : Nat → Parse α} {n : Nat} {ts : List Token}
    {definitions : List Definition} {d : Cursor} (hrest : ReadsExpanded constants σ n)
    (hp : Finishes σ p q 1 8) (make : α → Definition)
    (h : (do
      let a ← p
      return make a :: (← parseDefinitions constants n) : Parse (List Definition)) (ahead ts) =
        .ok (definitions, d)) {m : Nat} (hm : 8 * (expand σ ts).length ≤ m) :
    ∃ a d₁ d', q m (ahead (expand σ ts)) = .ok (a, d₁) ∧ (do
      let a ← q m
      return make a :: (← parseDefinitions [] m) : Parse (List Definition))
        (ahead (expand σ ts)) = .ok (definitions, d') := by
  obtain ⟨a, d₁, ha, h₁⟩ := run_bind_eq_ok.mp h
  obtain ⟨us, rfl, hus⟩ := hp ts a d₁ ha
  obtain ⟨-, hlt, hyields⟩ := hus trivial
  obtain ⟨rest, d₂, hdefinitions, h₂⟩ := run_bind_eq_ok.mp h₁
  obtain ⟨d', hrun⟩ := hrest hdefinitions (show _ ≤ m by omega)
  cases h₂
  have hread := hyields m (by omega)
  refine ⟨a, _, d', hread, ?_⟩
  rw [run_bind_of_ok hread, run_bind_of_ok hrun]
  rfl

theorem token_expand_plain {ts : List Token} {t : Token} (htoken : (ahead ts).token = t)
    (ht : t.plain) : (ahead (expand σ ts)).token = t := by
  obtain ⟨us, rfl⟩ := exists_of_token htoken (by rintro rfl; cases ht)
  rw [(expands_expand σ).plain ht]
  rfl

theorem token_expand_eof {ts : List Token} (htoken : (ahead ts).token = .eof) :
    (ahead (expand σ ts)).token = .eof := by
  cases ts with
  | nil => rwa [expand]
  | cons t us =>
      cases htoken
      rw [expand]
      rfl

theorem token_of_parseFunc {n : Nat} {ts : List Token} {f : FuncDef} {d : Cursor}
    (h : parseFunc constants n (ahead ts) = .ok (f, d)) :
    (ahead ts).token = .keyword .func := by
  rw [parseFunc] at h
  obtain ⟨us, rfl, -⟩ := expect_bind_eq_ok (by simp) h
  rfl

theorem parseDefinitions_expand : ∀ {n : Nat} {constants : Constants} {σ : Abbreviations},
    Agrees constants σ → ReadsExpanded constants σ n
  | 0, _, _, _, _, _, _, h, _, _ => nomatch h
  | n + 1, constants, σ, hσ, ts, definitions, d, h, m, hm => by
      have hrest : ReadsExpanded constants σ n := parseDefinitions_expand hσ
      obtain ⟨k, rfl⟩ : ∃ k, m = k + 1 := ⟨m - 1, by omega⟩
      rw [parseDefinitions, run_peek_bind] at h
      cases htoken : (ahead ts).token with
      | eof =>
          rw [htoken] at h
          cases h
          rw [parseDefinitions, run_peek_bind, token_expand_eof htoken]
          exact ⟨_, rfl⟩
      | keyword word =>
          cases word with
          | game | save =>
              simp only [htoken] at h
              rw [parseDefinitions, run_peek_bind, token_expand_plain htoken rfl]
              obtain ⟨-, -, d', -, hrun⟩ :=
                hrest.cons (finishes_parseVarDef hσ false n) .var h (Nat.le_of_succ_le_succ hm)
              exact ⟨d', hrun⟩
          | func =>
              simp only [htoken] at h
              obtain ⟨f, d₁, d', hfunc, hrun⟩ :=
                hrest.cons (finishes_parseFunc hσ n) .func h (Nat.le_of_succ_le_succ hm)
              refine ⟨d', ?_⟩
              rw [parseDefinitions, run_peek_bind, token_of_parseFunc hfunc]
              exact hrun
          | const =>
              simp only [htoken] at h
              obtain ⟨constants', d₁, hconst, h₁⟩ := run_bind_eq_ok.mp h
              obtain ⟨σ', us, rfl, hσ', hexpand⟩ := parseConst_eq_ok hσ hconst
              rw [hexpand] at hm ⊢
              exact parseDefinitions_expand hσ' h₁ hm
          | _ =>
              rw [htoken] at h
              cases h
      | _ =>
          rw [htoken] at h
          cases h

end

end Parser

theorem bare_of_parse {lexemes : List Lexeme} {definitions : List Definition}
    (h : parse lexemes = .ok definitions) :
    parse (lexemes.map Lexeme.bare) = .ok (definitions.map Definition.bare) := by
  have hsame := parse_bare lexemes
  rw [h] at hsame
  generalize parse (lexemes.map Lexeme.bare) = bare at hsame
  cases hsame with
  | ok heq => rw [heq]

theorem exists_of_parse_bare {lexemes : List Lexeme} {definitions : List Definition}
    (h : parse (lexemes.map Lexeme.bare) = .ok definitions) :
    ∃ definitions', parse lexemes = .ok definitions' ∧
      definitions'.map Definition.bare = definitions := by
  have hsame := parse_bare lexemes
  rw [h] at hsame
  generalize parse lexemes = full at hsame
  cases hsame with
  | ok heq => exact ⟨_, rfl, heq.symm⟩

/-- Constants are abbreviations: if their definitions are left out and their names written out,
none are left, and the parser reads the same definitions up to places. -/
theorem parse_expand {ts : List Token} {lexemes lexemes' : List Lexeme}
    {definitions : List Definition} (htokens : lexemes.map Lexeme.token = ts ++ [.eof])
    (h : parse lexemes = .ok definitions)
    (htokens' : lexemes'.map Lexeme.token = expand [] ts ++ [.eof]) :
    ConstantFree (expand [] ts) ∧ ∃ definitions', parse lexemes' = .ok definitions' ∧
      definitions'.map Definition.bare = definitions.map Definition.bare := by
  have hahead {ls : List Lexeme} {us : List Token} (hls : ls.map Lexeme.token = us ++ [.eof]) :
      (⟨0, ls.map Lexeme.bare⟩ : Cursor) = Cursor.ahead us := by
    rw [Cursor.ahead, ← hls, List.map_map]
    rfl
  obtain ⟨⟨ds, d⟩, hrun, hds⟩ := bind_eq_ok.mp (bare_of_parse h)
  cases hds
  rw [hahead htokens] at hrun
  have hlength := congrArg List.length htokens'
  rw [List.length_map, List.length_append] at hlength
  obtain ⟨d', hrun'⟩ := Parser.parseDefinitions_expand .nil hrun
    (show _ ≤ Parser.bound (lexemes'.map Lexeme.bare) by
      rw [Parser.bound, List.length_map]
      omega)
  refine ⟨constantFree_expand ts (List.forall_mem_nil _), ?_⟩
  refine exists_of_parse_bare (bind_eq_ok.mpr ⟨(_, d'), ?_, rfl⟩)
  rw [hahead htokens']
  exact hrun'

/-- A constant used in another one, redefined, quoted and assigned to, a key and a parameter of its
name, and an action behind a target. -/
theorem parse_expand_redefined :
    let ts : List Token := [
      .keyword .const, .ident "a", .mark .equals, .keyword .codeblock, .string "Say", .mark .less,
        .string "PLAYER ACTION", .mark .greater, .mark .semicolon,
      .keyword .const, .ident "c", .mark .equals, .ident "x", .mark .semicolon,
      .keyword .const, .ident "d", .mark .equals, .ident "c", .mark .plus, .string "s",
        .mark .semicolon,
      .keyword .const, .ident "c", .mark .equals, .ident "y", .mark .semicolon,
      .keyword .func, .ident "f", .mark .leftParen, .ident "c", .mark .colon, .type .str,
        .mark .rightParen, .mark .leftBrace,
      .varName "c", .mark .equals, .ident "d", .mark .dot, .ident "c", .mark .semicolon,
      .target .victim, .ident "a", .mark .semicolon, .mark .rightBrace]
    let us : List Token := [
      .keyword .func, .ident "f", .mark .leftParen, .ident "c", .mark .colon, .type .str,
        .mark .rightParen, .mark .leftBrace,
      .mark .leftParen, .ident "y", .mark .rightParen, .mark .equals,
        .mark .leftParen, .mark .leftParen, .ident "x", .mark .rightParen, .mark .plus,
        .string "s", .mark .rightParen, .mark .dot, .ident "c", .mark .semicolon,
      .target .victim, .keyword .codeblock, .string "Say", .mark .less,
        .string "PLAYER ACTION", .mark .greater, .mark .semicolon, .mark .rightBrace]
    let lexemes (ts : List Token) : List Lexeme :=
      (ts ++ [Token.eof]).zipIdx.map fun p => ⟨p.1, ⟨p.2, p.2 + 1⟩⟩
    expand [] ts = us ∧ ConstantFree us ∧ ∃ definitions definitions',
      parse (lexemes ts) = .ok definitions ∧ parse (lexemes us) = .ok definitions' ∧
        definitions'.map Definition.bare = definitions.map Definition.bare := by
  intro ts us lexemes
  have hexpand : expand [] ts = us := by
    simp [ts, us, expand, ActionRef.ofTokens?, Abbreviations.action?, Abbreviations.unfold,
      Abbreviations.meaning?, Abbreviation.tokens, ActionRef.tokens, Style.group,
      List.lookup_nil, List.lookup_cons]
  obtain ⟨definitions, hparse⟩ : ∃ definitions, parse (lexemes ts) = .ok definitions := ⟨_, rfl⟩
  have htokens (ts : List Token) : (lexemes ts).map Lexeme.token = ts ++ [.eof] := by
    rw [List.map_map]
    exact List.zipIdx_map_fst 0 _
  have htokens' : (lexemes us).map Lexeme.token = expand [] ts ++ [.eof] := by
    rw [hexpand, htokens]
  obtain ⟨hfree, definitions', hparse', hsame⟩ := parse_expand (htokens ts) hparse htokens'
  rw [hexpand] at hfree
  exact ⟨hexpand, hfree, definitions, definitions', hparse, hparse', hsame⟩

end DiamondScript
