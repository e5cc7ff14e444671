import DiamondScript.Proofs.Simulation

namespace DiamondScript

open Style (group)

open Grammar (SignedNumber)

namespace Parser

open Cursor (ahead)

section

variable {σ : Abbreviations} {E : List Token → List Token} (hE : Expands σ E)

include hE

mutual

theorem carries_parseType : ∀ n, Carries E (parseType n) parseType 1 8
  | 0 => nofun
  | n + 1 => by
      intro ts type d h
      rw [parseType, run_peek_bind] at h
      cases htoken : (ahead ts).token with
      | type base =>
          obtain ⟨us, rfl⟩ := exists_of_token htoken (by simp)
          simp only [Cursor.token_ahead, run_advance_bind, Cursor.advance_ahead] at h
          refine (simulates_eat (hE.plain rfl) (by simp)
            ((carries_parseTypeParams n).andThen fun params =>
              simulates_mark hE (by simp) (simulates_return fun _ => rfl))
            (simulates_return fun _ => rfl)).head hE rfl (fun m r hm => ?_) h (by omega) (by omega)
          rw [parseType, run_peek_bind, Cursor.token_ahead]
          simpa only [run_advance_bind, Cursor.advance_ahead] using hm
      | _ =>
          rw [htoken] at h
          cases h

theorem carries_parseTypeParams : ∀ n, Carries E (parseTypeParams n) parseTypeParams 1 7
  | 0 => nofun
  | n + 1 => by
      refine .succ (by omega) ?_
      simp only [parseTypeParams]
      exact .mono (by omega) (by omega) <| (carries_parseType n).andThen fun type =>
        simulates_eat (hE.plain rfl) (by simp) ((carries_parseTypeParams n).andThen fun types =>
          simulates_return fun _ => rfl) (simulates_return fun _ => rfl)

end

end

/-- A constant and what its name is short for. -/
inductive Stands : Constant → Abbreviation → Prop
  | expr {e : Expr} {ts : List Token} (bare : e.bare = e)
      (reads : ∀ us, Yields (parseExpr []) 0 8 (ts ++ .mark .rightParen :: us)
        (.mark .rightParen :: us) e) :
      Stands (.expr e) (.expr ts)
  | action (ref : ActionRef) : Stands (.action ref) (.action ref)

abbrev Agrees : Constants → Abbreviations → Prop :=
  List.Forall₂ fun c a => c.1 = a.1 ∧ Stands c.2 a.2

theorem Agrees.lookup {constants : Constants} {σ : Abbreviations} (h : Agrees constants σ)
    (name : String) : (constants.lookup name = none ∧ σ.lookup name = none) ∨
      ∃ k a, constants.lookup name = some k ∧ σ.lookup name = some a ∧ Stands k a := by
  induction h with
  | nil => exact .inl ⟨rfl, rfl⟩
  | @cons c a constants σ hhead _ ih =>
      obtain ⟨x, k⟩ := c
      obtain ⟨y, a⟩ := a
      obtain ⟨hname, hstands⟩ := hhead
      cases hname
      rw [List.lookup_cons, List.lookup_cons]
      cases name == x with
      | true => exact .inr ⟨k, a, rfl, rfl, hstands⟩
      | false => exact ih

theorem moveTo_of_bare {e : Expr} (h : e.bare = e) : e.moveTo .nowhere = e := by
  rw [← h]
  cases e <;> rfl

section

variable {constants : Constants} {σ : Abbreviations} {E : List Token → List Token}
  (hE : Expands σ E)

include hE

theorem yields_action (ref : ActionRef) (us : List Token) :
    Yields (parsePrimary []) 1 11 (E (ref.tokens ++ us)) (E us) (.action ref .nowhere) := by
  rw [expands_action hE]
  exact yields_tokens (by simp [ActionRef.tokens]) (by omega) fun m =>
    parsePrimary_action ref (E us)

theorem yields_number {xs : List Token} {x : Binary64} (hx : SignedNumber xs x)
    (us : List Token) :
    Yields (parsePrimary []) 1 11 (E (xs ++ us)) (E us) (.expr (.number .nowhere x)) := by
  rw [expands_number hE hx]
  refine yields_tokens (by cases hx <;> simp) (by omega) fun m => ?_
  have hrun : (do
      let x ← expectSignedNumber "expression"
      return Operand.expr (.number ⟨0, ← lastEnd⟩ x) : Parse Operand) (ahead (xs ++ E us)) =
        .ok (.expr (.number .nowhere x), ahead (E us)) :=
    run_expectSignedNumber hx _ _
  rw [← hrun, parsePrimary, run_get_bind]
  cases hx <;> simp only [List.cons_append, Cursor.token_ahead, Cursor.span_ahead]

theorem carries_numberOperand {ts : List Token} {operand : Operand} {d : Cursor}
    (h : (do
      let x ← expectSignedNumber "expression"
      return .expr (.number ⟨0, ← lastEnd⟩ x) : Parse Operand) (ahead ts) = .ok (operand, d)) :
    ∃ us, d = ahead us ∧ Yields (parsePrimary []) 1 11 (E ts) (E us) operand := by
  obtain ⟨xs, x, us, rfl, hx, h₁⟩ := expectSignedNumber_bind_eq_ok h
  cases h₁
  exact ⟨us, rfl, yields_number hE hx us⟩

theorem yields_name (hσ : Agrees constants σ) {t : Token} {name : String} (ht : t.Names name)
    (us : List Token) (hus : Meets E us) :
    Yields (parsePrimary []) 1 11 (E (t :: us)) (E us)
      ((substitute constants name none .nowhere).getD (.expr (.variable .nowhere name))) := by
  rcases hσ.lookup name with ⟨hconstant, hfree⟩ | ⟨k, a, hconstant, hused, hstands⟩
  · rw [hE.free ht hfree, substitute, hconstant]
    refine yields_tokens (List.cons_ne_nil t []) (by omega) fun m => ?_
    rw [parsePrimary, run_get_bind]
    rcases ht with rfl | rfl <;> simp [substitute]
  · rw [hE.used ht hused hus.undeclared, substitute, hconstant]
    cases hstands with
    | action ref =>
        have htokens : ref.tokens ≠ [] := by simp [ActionRef.tokens]
        exact yields_tokens htokens (by omega) fun m => parsePrimary_action ref (E us)
    | @expr e ts bare reads =>
        have hlength : (group ts ++ E us).length = ts.length + (E us).length + 2 := by
          simp only [group, List.length_append, List.length_cons, List.length_nil]
          omega
        constructor
        · rw [Abbreviation.tokens, hlength]
          omega
        · intro m hm
          rw [Abbreviation.tokens, hlength] at hm
          obtain ⟨n, rfl⟩ : ∃ n, m = n + 1 := ⟨m - 1, by omega⟩
          have hrun := (reads (E us)).run n (by
            rw [List.length_append, List.length_cons]
            omega)
          rw [Option.getD_some, moveTo_of_bare bare]
          exact parsePrimary_group hrun (opens_of_parseExpr hrun)

theorem yields_targeted (hσ : Agrees constants σ) {t : Token} {name : String} (ht : t.Names name)
    {ref : ActionRef} (hname : constants.lookup name = some (.action ref)) (target : Target)
    (us : List Token) :
    Yields (parsePrimary []) 1 11 (E (.target target :: t :: us)) (E us)
      (.action { ref with target := some target } .nowhere) := by
  rcases hσ.lookup name with ⟨hconstant, -⟩ | ⟨k, a, hconstant, hused, hstands⟩
  · rw [hname] at hconstant
    cases hconstant
  · rw [hname] at hconstant
    cases hconstant
    cases hstands
    rw [hE.targeted target ht hused, ← expands_action hE]
    exact yields_action hE _ us

theorem carries_parseTargeted (hσ : Agrees constants σ) {target : Target} {ts : List Token}
    {operand : Operand} {d : Cursor}
    (h : parseTargeted constants .nowhere target (ahead (.target target :: ts)) =
      .ok (operand, d)) :
    ∃ us, d = ahead us ∧
      Yields (parsePrimary []) 1 11 (E (.target target :: ts)) (E us) operand := by
  rw [parseTargeted, run_get_bind] at h
  cases ts with
  | nil => cases h
  | cons t us =>
      rw [Cursor.following_ahead] at h
      cases t with
      | keyword k =>
          cases k with
          | codeblock =>
              obtain ⟨ref, us, hts, href⟩ := parseActionRef_bind_eq_ok h
              cases href
              rw [hts]
              exact ⟨us, rfl, yields_action hE ref us⟩
          | _ => cases h
      | ident name | varName name =>
          dsimp only at h
          cases hname : constants.lookup name with
          | none =>
              rw [hname] at h
              cases h
          | some k =>
              rw [hname] at h
              cases k with
              | expr => cases h
              | action ref =>
                  simp only [run_advance_bind, Cursor.advance_ahead] at h
                  cases h
                  refine ⟨us, rfl, yields_targeted hE hσ ?_ hname target us⟩
                  simp [Token.Names]
      | _ => cases h

theorem carries_parseVector {ts : List Token} {operand : Operand} {d : Cursor}
    (h : parseVector .nowhere (ahead (.mark .less :: ts)) = .ok (operand, d)) :
    ∃ us, d = ahead us ∧
      Yields (parsePrimary []) 1 11 (E (.mark .less :: ts)) (E us) operand := by
  rw [parseVector, run_advance_bind, Cursor.advance_ahead] at h
  obtain ⟨xs, x, ts₁, rfl, hx, h₁⟩ := expectSignedNumber_bind_eq_ok h
  obtain ⟨ts₂, rfl, h₂⟩ := expectMark_bind_eq_ok h₁
  obtain ⟨ys, y, ts₃, rfl, hy, h₃⟩ := expectSignedNumber_bind_eq_ok h₂
  obtain ⟨ts₄, rfl, h₄⟩ := expectMark_bind_eq_ok h₃
  obtain ⟨zs, z, ts₅, rfl, hz, h₅⟩ := expectSignedNumber_bind_eq_ok h₄
  obtain ⟨us, rfl, h₆⟩ := expectMark_bind_eq_ok h₅
  cases h₆
  refine ⟨us, rfl, ?_⟩
  rw [hE.plain rfl, expands_number hE hx, hE.plain rfl, expands_number hE hy, hE.plain rfl,
    expands_number hE hz, hE.plain rfl]
  constructor
  · simp only [List.length_append, List.length_cons]
    omega
  · intro m hm
    rw [List.length_cons] at hm
    obtain ⟨n, rfl⟩ : ∃ n, m = n + 1 := ⟨m - 1, by omega⟩
    rw [parsePrimary, run_get_bind]
    simp only [Cursor.token_ahead, parseVector, run_advance_bind, Cursor.advance_ahead,
      run_expectSignedNumber hx, run_expectSignedNumber hy, run_expectSignedNumber hz,
      run_expectMark_ahead]
    simp

end

section

variable (constants : Constants) (n : Nat) (ts : List Token)

/-- What follows the left side of an assignment, or any expression. -/
def assigned (left : Expr) : Parse Expr := do
  let c ← get
  if c.token = .mark .equals then
    advance
    let value ← parseExpr constants n
    assignTo left value c.span
  else return left

def applied : Operand → Parse Expr
  | .action ref span => do
    if (← peek) = .mark .leftParen then
      let args ← parseArgs constants n
      parseIndices constants (.action ⟨span.start, ← lastEnd⟩ ref args) n
    else parseIndices constants (.action ⟨span.start, ← lastEnd⟩ ref []) n
  | .expr (.variable span name) => do
    if (← peek) = .mark .leftParen then
      let args ← parseArgs constants n
      parseIndices constants (.call ⟨span.start, ← lastEnd⟩ name args) n
    else parseIndices constants (.variable span name) n
  | .expr e => parseIndices constants e n

def parseEntry : Parse (String × Expr) := do
  let key ← expectString "dictionary key (string)"
  let _ ← expectMark .colon "':' after dictionary key"
  let value ← parseExpr constants n
  return (key, value)

theorem parseExpr_succ :
    parseExpr constants (n + 1) = parseBinary constants 0 n >>= assigned constants n := by
  rw [parseExpr]
  rfl

theorem parsePostfix_succ :
    parsePostfix constants (n + 1) = parsePrimary constants n >>= applied constants n := by
  rw [parsePostfix]
  refine bind_congr fun operand => ?_
  cases operand with
  | action ref span => simp only [applied, pure_bind]
  | expr e => cases e <;> rfl

theorem parseArgsRest_succ : parseArgsRest constants (n + 1) =
    orNone (separated (parseExpr constants n) .rightParen "',' after argument"
      (parseArgsRest constants n)) .rightParen := by
  rw [parseArgsRest]
  rfl

theorem parseItems_succ : parseItems constants (n + 1) =
    separated (parseExpr constants n) .rightBracket "',' after list value"
      (parseItems constants n) := by
  rw [parseItems]
  rfl

theorem parseEntries_succ : parseEntries constants (n + 1) =
    separated (parseEntry constants n) .rightBrace "',' after dictionary entry"
      (parseEntries constants n) := by
  simp only [parseEntries, separated, parseEntry, bind_assoc, pure_bind]

theorem parsePrimary_brace : parsePrimary constants (n + 1) (ahead (.mark .leftBrace :: ts)) =
    (do
      let entries ← orNone (parseEntries constants n) .rightBrace
      let _ ← expectMark .rightBrace "'\x7d' after dictionary"
      return .expr (.dict ⟨0, ← lastEnd⟩ entries) : Parse Operand) (ahead ts) := by
  rw [parsePrimary, run_get_bind]
  simp only [Cursor.token_ahead, run_advance_bind, Cursor.advance_ahead, Cursor.span_ahead,
    orNone_bind, pure_bind]

theorem parsePrimary_bracket : parsePrimary constants (n + 1) (ahead (.mark .leftBracket :: ts)) =
    (do
      let items ← orNone (parseItems constants n) .rightBracket
      let _ ← expectMark .rightBracket "']' after list"
      return .expr (.list ⟨0, ← lastEnd⟩ items) : Parse Operand) (ahead ts) := by
  rw [parsePrimary, run_get_bind]
  simp only [Cursor.token_ahead, run_advance_bind, Cursor.advance_ahead, Cursor.span_ahead,
    orNone_bind, pure_bind]

variable {ts}

theorem parsePrimary_cast {base : BaseType} (h : (ahead ts).token = .type base) :
    parsePrimary constants (n + 1) (ahead (.mark .leftParen :: ts)) =
      (do
        let type ← parseType n
        let _ ← expectMark .rightParen "')' after cast type"
        let value ← parseBinary constants 0 n
        return .expr (.cast ⟨0, value.span.stop⟩ type value) : Parse Operand) (ahead ts) := by
  rw [parsePrimary, run_get_bind]
  simp only [Cursor.token_ahead, run_advance_bind, Cursor.advance_ahead, Cursor.span_ahead,
    run_peek_bind, h]

theorem parsePrimary_inner (h : ∀ base, (ahead ts).token ≠ .type base) :
    parsePrimary constants (n + 1) (ahead (.mark .leftParen :: ts)) =
      (do
        let inner ← parseExpr constants n
        let _ ← expectMark .rightParen "')' after expression"
        return .expr inner : Parse Operand) (ahead ts) := by
  rw [parsePrimary, run_get_bind]
  simp only [Cursor.token_ahead, run_advance_bind, Cursor.advance_ahead, run_peek_bind]

end

section

variable {constants : Constants} {σ : Abbreviations} {E : List Token → List Token}
  (hE : Expands σ E) {n : Nat}

theorem simulates_assignTo {F : List Token → Prop} (left value : Expr) :
    Simulates E F F (assignTo left value .nowhere) (fun _ => assignTo left value .nowhere) 0 8 := by
  intro ts e d h
  obtain ⟨rfl, hassign⟩ := assignTo_eq_ok h
  exact ⟨ts, rfl, fun hF => ⟨hF, Nat.le_refl _, fun m _ => hassign _⟩⟩

theorem resumes_applied (hargs : Resumes E (parseArgs constants n) (parseArgs []) 1 8)
    (hindices : ∀ object, Resumes E (parseIndices constants object n) (parseIndices [] object) 0 7)
    (operand : Operand) :
    Resumes E (applied constants n operand) (applied [] · operand) 0 7 := by
  cases operand with
  | action ref span =>
      exact .mono (by omega) (by omega) <| simulates_peek (by simp)
        (hargs.andThen fun args => simulates_lastEnd (hindices _)) (simulates_lastEnd (hindices _))
  | expr e =>
      cases e with
      | «variable» span name =>
          exact .mono (by omega) (by omega) <| simulates_peek (by simp)
            (hargs.andThen fun args => simulates_lastEnd (hindices _)) (hindices _)
      | _ => exact hindices _

include hE

theorem resumes_assigned (hexpr : Carries E (parseExpr constants n) (parseExpr []) 1 8)
    (left : Expr) : Resumes E (assigned constants n left) (assigned [] · left) 0 8 := by
  intro ts e d h
  rw [assigned, run_get_bind] at h
  split at h
  case isTrue htoken =>
    obtain ⟨us, rfl⟩ := exists_of_token htoken (by simp)
    rw [run_advance_bind, Cursor.advance_ahead, Cursor.span_ahead] at h
    obtain ⟨vs, hd, hvs⟩ := (hexpr.andThen fun value => simulates_assignTo left value) us e d h
    refine ⟨vs, hd, fun hmeets => ⟨meets_cons (hE.plain rfl us) (by simp), ?_⟩⟩
    rw [hE.plain rfl]
    refine ((hvs hmeets).2.cons fun m => ?_).mono (by omega) (by omega)
    rw [assigned, run_get_bind, if_pos (Cursor.token_ahead _ _), run_advance_bind,
      Cursor.advance_ahead, Cursor.span_ahead]
  case isFalse htoken =>
    cases h
    refine ⟨ts, rfl, fun hmeets => ⟨hmeets, Nat.le_refl _, fun m _ => ?_⟩⟩
    rw [assigned, run_get_bind, if_neg (hmeets.ne htoken (by simp))]
    rfl

theorem resumes_key {α : Type} {f : String × Span → Parse α} {g : String × Span → Nat → Parse α}
    {a : α} (h : ∀ key, Resumes E (f (key, .nowhere)) (g (key, .nowhere)) 0 7)
    (what : String) :
    Resumes E (do if ← eat (.mark .dot) then expectIdent what >>= f else return a)
      (fun m => do
        if ← eat (.mark .dot) then expectIdent what >>= fun key => g key m else return a)
      0 8 := by
  intro ts b d hrun
  rcases eat_bind_eq_ok (by simp) hrun with ⟨us, rfl, h₁⟩ | ⟨hdot, h₁⟩
  · obtain ⟨key, vs, rfl, h₂⟩ := expectIdent_bind_eq_ok h₁
    obtain ⟨ws, hd, hws⟩ := h key vs b d h₂
    refine ⟨ws, hd, fun hmeets => ⟨⟨by simp, .inl (by rw [hE.key]; rfl)⟩, ?_⟩⟩
    rw [hE.key]
    refine ((hws hmeets).2.append [.mark .dot, .ident key] (by simp) fun m => ?_).mono (by omega)
      (by omega)
    simp only [List.cons_append, List.nil_append]
    rw [run_eat_ahead, if_pos rfl, run_expectIdent_ahead]
  · cases h₁
    refine ⟨ts, rfl, fun hmeets => ⟨hmeets, Nat.le_refl _, fun m _ => ?_⟩⟩
    rw [run_eat_other (hmeets.ne hdot (by simp))]
    rfl

theorem carries_parseEntry (hexpr : Carries E (parseExpr constants n) (parseExpr []) 1 8) :
    Carries E (parseEntry constants n) (parseEntry []) 1 8 := by
  intro ts entry d h
  rw [parseEntry] at h
  obtain ⟨key, us, rfl, h₁⟩ := expectString_bind_eq_ok h
  obtain ⟨vs, rfl, h₂⟩ := expectMark_bind_eq_ok h₁
  obtain ⟨ws, hd, hws⟩ :=
    (hexpr.andThen fun value => simulates_return fun _ => rfl) vs entry d h₂
  refine ⟨ws, hd, fun hmeets => ⟨trivial, ?_⟩⟩
  rw [hE.plain rfl, hE.plain rfl]
  refine ((hws hmeets).2.append [.string key, .mark .colon] (by simp) fun m => ?_).mono (by omega)
    (by omega)
  simp only [List.cons_append, List.nil_append]
  rw [parseEntry, run_expectString_ahead, run_expectMark_ahead]

end

section

variable {constants : Constants} {σ : Abbreviations} {E : List Token → List Token}
  (hE : Expands σ E) (hσ : Agrees constants σ)

include hE hσ

set_option linter.unusedSectionVars false

mutual

theorem carries_parseExpr : ∀ n, Carries E (parseExpr constants n) (parseExpr []) 1 8
  | 0 => nofun
  | n + 1 => by
      refine .succ (by omega) ?_
      simp only [parseExpr_succ]
      exact .mono (by omega) (by omega) <| (carries_parseBinary 0 n).andThen fun left =>
        resumes_assigned hE (carries_parseExpr n) left

theorem carries_parseBinary (least : Nat) :
    ∀ n, Carries E (parseBinary constants least n) (parseBinary [] least) 1 9
  | 0 => nofun
  | n + 1 => by
      refine .succ (by omega) ?_
      simp only [parseBinary]
      exact .mono (by omega) (by omega) <| (carries_parsePostfix n).andThen fun left =>
        resumes_parseOperators least left n

theorem resumes_parseOperators (least : Nat) (left : Expr) :
    ∀ n, Resumes E (parseOperators constants least left n) (parseOperators [] least left) 0 7
  | 0 => nofun
  | n + 1 => by
      refine .succ (by omega) ?_
      intro ts e d h
      rw [parseOperators, run_get_bind] at h
      cases hop : binaryOp? (ahead ts).token with
      | none =>
          rw [hop] at h
          cases h
          refine ⟨ts, rfl, fun hmeets => ⟨hmeets, Nat.le_refl _, fun m _ => ?_⟩⟩
          exact parseOperators_stop (hmeets.binaryOp?_eq.trans hop)
      | some operator =>
          obtain ⟨op, strength, leftward⟩ := operator
          simp only [hop] at h
          split at h
          case isTrue hweak =>
            cases h
            refine ⟨ts, rfl, fun hmeets => ⟨hmeets, Nat.le_refl _, fun m _ => ?_⟩⟩
            rw [parseOperators, run_get_bind, hmeets.binaryOp?_eq, hop]
            dsimp only
            rw [if_pos hweak]
            rfl
          case isFalse hstrong =>
            obtain ⟨mark, htoken, hmark⟩ := mark_of_binaryOp? hop
            obtain ⟨us, rfl⟩ := exists_of_token htoken (by simp)
            have hplain : (Token.mark mark).plain := by simp [Token.plain, hmark]
            rw [run_advance_bind, Cursor.advance_ahead, Cursor.span_ahead] at h
            obtain ⟨vs, hd, hvs⟩ := ((carries_parseBinary _ n).andThen fun right =>
              resumes_parseOperators least _ n) us e d h
            refine ⟨vs, hd, fun hmeets => ⟨meets_cons (hE.plain hplain us) (by simp [hmark]), ?_⟩⟩
            rw [hE.plain hplain]
            refine ((hvs hmeets).2.cons fun m => ?_).mono (by omega) (by omega)
            rw [Cursor.token_ahead] at hop
            rw [parseOperators, run_get_bind, Cursor.token_ahead, hop]
            dsimp only
            rw [if_neg hstrong, run_advance_bind, Cursor.advance_ahead, Cursor.span_ahead]

theorem carries_parsePostfix : ∀ n, Carries E (parsePostfix constants n) (parsePostfix []) 1 10
  | 0 => nofun
  | n + 1 => by
      refine .succ (by omega) ?_
      simp only [parsePostfix_succ]
      exact .mono (by omega) (by omega) <| (carries_parsePrimary n).andThen
        (resumes_applied (resumes_parseArgs n) fun object => resumes_parseIndices object n)

theorem carries_parsePrimary : ∀ n, Carries E (parsePrimary constants n) (parsePrimary []) 1 11
  | 0 => nofun
  | n + 1 => by
      intro ts operand d h
      cases ts with
      | nil => cases h
      | cons t us =>
          have hrun := h
          rw [parsePrimary, run_get_bind] at h
          simp only [Cursor.token_ahead, Cursor.span_ahead] at h
          cases t with
          | target t =>
              obtain ⟨vs, hd, hvs⟩ := carries_parseTargeted hE hσ h
              exact ⟨vs, hd, fun _ => ⟨trivial, hvs⟩⟩
          | keyword k =>
              cases k with
              | codeblock =>
                  obtain ⟨ref, vs, hts, h₁⟩ := parseActionRef_bind_eq_ok h
                  cases h₁
                  rw [hts]
                  exact ⟨vs, rfl, fun _ => ⟨trivial, yields_action hE ref vs⟩⟩
              | _ => cases h
          | ident name | varName name =>
              simp only [run_advance_bind, Cursor.advance_ahead] at h
              cases h
              exact ⟨us, rfl, fun hmeets =>
                ⟨trivial, yields_name hE hσ (by simp [Token.Names]) us hmeets⟩⟩
          | number x =>
              obtain ⟨vs, hd, hvs⟩ := carries_numberOperand hE h
              exact ⟨vs, hd, fun _ => ⟨trivial, hvs⟩⟩
          | string s | styledText s =>
              simp only [run_advance_bind, Cursor.advance_ahead] at h
              cases h
              refine ⟨us, rfl, fun _ => ⟨trivial, ?_⟩⟩
              rw [hE.plain rfl]
              exact yields_tokens (List.cons_ne_nil _ []) (by omega) fun m => by simp [parsePrimary]
          | mark m =>
              cases m with
              | minus =>
                  obtain ⟨vs, hd, hvs⟩ := carries_numberOperand hE h
                  exact ⟨vs, hd, fun _ => ⟨trivial, hvs⟩⟩
              | less =>
                  obtain ⟨vs, hd, hvs⟩ := carries_parseVector hE h
                  exact ⟨vs, hd, fun _ => ⟨trivial, hvs⟩⟩
              | leftParen =>
                  by_cases hcast : ∃ base, (ahead us).token = .type base
                  · obtain ⟨base, htoken⟩ := hcast
                    obtain ⟨vs, rfl⟩ := exists_of_token htoken (by simp)
                    rw [parsePrimary_cast _ _ htoken] at hrun
                    refine ((carries_parseType hE n).andThen fun type =>
                      simulates_mark hE (by simp) ((carries_parseBinary 0 n).andThen fun value =>
                        simulates_return fun _ => rfl)).head hE rfl (fun m r hm => ?_) hrun
                      (by omega) (by omega)
                    have hbase : (ahead (E (.type base :: vs))).token = .type base := by
                      rw [hE.plain rfl]
                      rfl
                    rwa [parsePrimary_cast _ _ hbase]
                  · rw [parsePrimary_inner _ _ (not_exists.mp hcast)] at hrun
                    refine ((carries_parseExpr n).andThen fun inner => simulates_mark hE (by simp)
                      (simulates_return fun _ => rfl)).head hE rfl (fun m r hm => ?_) hrun
                      (by omega) (by omega)
                    rwa [parsePrimary_inner]
                    obtain ⟨_, _, hinner, -⟩ := run_bind_eq_ok.mp hm
                    exact (opens_of_parseExpr hinner).2.1
              | leftBrace =>
                  rw [parsePrimary_brace] at hrun
                  refine ((carries_orNone (by simp) (carries_parseEntries n)
                    token_of_parseEntries).andThen fun entries => simulates_mark hE (by simp)
                      simulates_returnEnd).head hE rfl (fun m r hm => ?_) hrun (by omega) (by omega)
                  rwa [parsePrimary_brace]
              | leftBracket =>
                  rw [parsePrimary_bracket] at hrun
                  refine ((carries_orNone (by simp) (carries_parseItems n)
                    token_of_parseItems).andThen fun items => simulates_mark hE (by simp)
                      simulates_returnEnd).head hE rfl (fun m r hm => ?_) hrun (by omega) (by omega)
                  rwa [parsePrimary_bracket]
              | _ => cases h
          | _ => cases h

theorem resumes_parseIndices (object : Expr) :
    ∀ n, Resumes E (parseIndices constants object n) (parseIndices [] object) 0 7
  | 0 => nofun
  | n + 1 => by
      refine .succ (by omega) ?_
      simp only [parseIndices]
      exact .mono (by omega) (by omega) <| simulates_eat (hE.plain rfl) (by simp)
        ((carries_parseExpr n).andThen fun index =>
          simulates_mark hE (by simp) (simulates_lastEnd (resumes_parseIndices _ n)))
        (resumes_key hE (fun key => resumes_parseIndices _ n) _)

theorem resumes_parseArgs : ∀ n, Resumes E (parseArgs constants n) (parseArgs []) 1 8
  | 0 => nofun
  | n + 1 => by
      refine .succ (by omega) ?_
      simp only [parseArgs]
      exact .mono (by omega) (by omega) <| simulates_mark hE (by simp)
        ((carries_parseArgsRest n).andThen fun args =>
          simulates_mark hE (by simp) (simulates_return fun _ => rfl))

theorem carries_parseArgsRest :
    ∀ n, Carries E (parseArgsRest constants n) (parseArgsRest []) 0 7
  | 0 => nofun
  | n + 1 => by
      refine .succ (by omega) ?_
      simp only [parseArgsRest_succ]
      refine .mono (by omega) (by omega) <| carries_orNone (by simp) (carries_separated hE (by simp)
        (carries_parseExpr n) (carries_parseArgsRest n)) fun h => ?_
      obtain ⟨_, _, hexpr, -⟩ := run_bind_eq_ok.mp h
      exact ne_of_opens (opens_of_parseExpr hexpr) rfl

theorem carries_parseEntries :
    ∀ n, Carries E (parseEntries constants n) (parseEntries []) 0 7
  | 0 => nofun
  | n + 1 => by
      refine .succ (by omega) ?_
      simp only [parseEntries_succ]
      exact .mono (by omega) (by omega) <| carries_separated hE (by simp)
        (carries_parseEntry hE (carries_parseExpr n)) (carries_parseEntries n)

theorem carries_parseItems : ∀ n, Carries E (parseItems constants n) (parseItems []) 0 7
  | 0 => nofun
  | n + 1 => by
      refine .succ (by omega) ?_
      simp only [parseItems_succ]
      exact .mono (by omega) (by omega) <| carries_separated hE (by simp) (carries_parseExpr n)
        (carries_parseItems n)

end

end

end Parser

end DiamondScript
