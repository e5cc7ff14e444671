import DiamondScript.Proofs.Operands

namespace DiamondScript

open Grammar (SignedNumber)

namespace Parser

open Cursor (ahead)

theorem ahead_inj {ts us : List Token} (h : ahead ts = ahead us) : ts = us := by
  have hrest := congrArg (fun c => c.rest.map Lexeme.token) h
  simpa [ahead, Function.comp_def] using hrest

section

variable {α : Type} {ts : List Token} {r : α × Cursor}

theorem exists_of_token {t : Token} (h : (ahead ts).token = t) (ht : t ≠ .eof) :
    ∃ us, ts = t :: us := by
  cases ts with
  | nil => exact absurd h.symm ht
  | cons u us => exact ⟨us, congrArg (· :: us) h⟩

theorem expect_bind_eq_ok {t : Token} (ht : t ≠ .eof) {what : String} {f : Span → Parse α}
    (h : (expect t what >>= f) (ahead ts) = .ok r) :
    ∃ us, ts = t :: us ∧ f .nowhere (ahead us) = .ok r := by
  rw [run_expect_bind] at h
  split at h
  case isTrue htoken =>
    obtain ⟨us, rfl⟩ := exists_of_token htoken ht
    rw [Cursor.advance_ahead, Cursor.span_ahead] at h
    exact ⟨us, rfl, h⟩
  case isFalse => cases h

theorem expectMark_bind_eq_ok {m : Mark} {what : String} {f : Span → Parse α}
    (h : (expectMark m what >>= f) (ahead ts) = .ok r) :
    ∃ us, ts = .mark m :: us ∧ f .nowhere (ahead us) = .ok r :=
  expect_bind_eq_ok (by simp) h

theorem eat_bind_eq_ok {t : Token} (ht : t ≠ .eof) {f : Bool → Parse α}
    (h : (eat t >>= f) (ahead ts) = .ok r) :
    (∃ us, ts = t :: us ∧ f true (ahead us) = .ok r) ∨
      ((ahead ts).token ≠ t ∧ f false (ahead ts) = .ok r) := by
  rw [run_eat_bind] at h
  split at h
  case isTrue htoken =>
    obtain ⟨us, rfl⟩ := exists_of_token htoken ht
    rw [Cursor.advance_ahead] at h
    exact .inl ⟨us, rfl, h⟩
  case isFalse htoken => exact .inr ⟨htoken, h⟩

theorem expectIdent_bind_eq_ok {what : String} {f : String × Span → Parse α}
    (h : (expectIdent what >>= f) (ahead ts) = .ok r) :
    ∃ name us, ts = .ident name :: us ∧ f (name, .nowhere) (ahead us) = .ok r := by
  cases ts with
  | nil => cases h
  | cons t us =>
      cases t with
      | ident name =>
          rw [run_expectIdent_ahead] at h
          exact ⟨name, us, rfl, h⟩
      | _ => cases h

theorem expectString_bind_eq_ok {what : String} {f : String → Parse α}
    (h : (expectString what >>= f) (ahead ts) = .ok r) :
    ∃ s us, ts = .string s :: us ∧ f s (ahead us) = .ok r := by
  cases ts with
  | nil => cases h
  | cons t us =>
      cases t with
      | string s =>
          rw [run_expectString_ahead] at h
          exact ⟨s, us, rfl, h⟩
      | _ => cases h

theorem expectSignedNumber_bind_eq_ok {what : String} {f : Binary64 → Parse α}
    (h : (expectSignedNumber what >>= f) (ahead ts) = .ok r) :
    ∃ xs x us, ts = xs ++ us ∧ SignedNumber xs x ∧ f x (ahead us) = .ok r := by
  rw [expectSignedNumber, bind_assoc] at h
  rcases eat_bind_eq_ok (by simp) h with ⟨us, rfl, h₁⟩ | ⟨-, h₁⟩
  · rw [bind_assoc, run_peek_bind] at h₁
    cases us with
    | nil => cases h₁
    | cons t us =>
        cases t with
        | number x => exact ⟨_, _, us, rfl, .negative x, by simpa using h₁⟩
        | _ => cases h₁
  · rw [bind_assoc, run_peek_bind] at h₁
    cases ts with
    | nil => cases h₁
    | cons t us =>
        cases t with
        | number x => exact ⟨_, _, us, rfl, .plain x, by simpa using h₁⟩
        | _ => cases h₁

theorem run_expectSignedNumber {xs : List Token} {x : Binary64} (hx : SignedNumber xs x)
    (what : String) (f : Binary64 → Parse α) :
    (expectSignedNumber what >>= f) (ahead (xs ++ ts)) = f x (ahead ts) := by
  cases hx with
  | plain x =>
      rw [expectSignedNumber, bind_assoc, List.cons_append, run_eat_other (by simp)]
      simp
  | negative x =>
      rw [expectSignedNumber, bind_assoc, List.cons_append, run_eat_ahead]
      simp

theorem parseActionRef_bind_eq_ok {f : ActionRef → Parse α}
    (h : (parseActionRef >>= f) (ahead ts) = .ok r) :
    ∃ ref us, ts = ref.tokens ++ us ∧ f ref (ahead us) = .ok r := by
  have hrest (target : Option Target) {ts : List Token}
      (h : ((do
        let _ ← expect (.keyword .codeblock) "'codeblock'"
        let action ← expectString "codeblock action (as string)"
        let _ ← expectMark .less "'<'"
        let category ← expectString "codeblock category (as string)"
        let _ ← expectMark .greater "'>'"
        return ⟨action, category, target⟩ : Parse ActionRef) >>= f) (ahead ts) = .ok r) :
      ∃ action category us, ts = (ActionRef.mk action category none).tokens ++ us ∧
        f ⟨action, category, target⟩ (ahead us) = .ok r := by
    simp only [bind_assoc, pure_bind] at h
    obtain ⟨us₁, rfl, h₁⟩ := expect_bind_eq_ok (by simp) h
    obtain ⟨action, us₂, rfl, h₂⟩ := expectString_bind_eq_ok h₁
    obtain ⟨us₃, rfl, h₃⟩ := expectMark_bind_eq_ok h₂
    obtain ⟨category, us₄, rfl, h₄⟩ := expectString_bind_eq_ok h₃
    obtain ⟨us₅, rfl, h₅⟩ := expectMark_bind_eq_ok h₄
    exact ⟨action, category, us₅, rfl, h₅⟩
  rw [parseActionRef, bind_assoc, takeTarget, bind_assoc, run_peek_bind] at h
  cases htoken : (ahead ts).token with
  | target t =>
      obtain ⟨us, rfl⟩ := exists_of_token htoken (by simp)
      simp only [Cursor.token_ahead, bind_assoc, run_advance_bind, Cursor.advance_ahead,
        pure_bind] at h
      obtain ⟨action, category, vs, rfl, hf⟩ := hrest (some t) (by simpa using h)
      exact ⟨⟨action, category, some t⟩, vs, rfl, hf⟩
  | _ =>
      simp only [htoken, pure_bind] at h
      obtain ⟨action, category, vs, rfl, hf⟩ := hrest none (by simpa using h)
      exact ⟨⟨action, category, none⟩, vs, rfl, hf⟩

end

section

variable {constants : Constants} {least n : Nat} {c : Cursor}

theorem opens_of_parsePrimary {r : Operand × Cursor} (h : parsePrimary constants n c = .ok r) :
    Opens c.token := by
  cases n with
  | zero => cases h
  | succ n =>
      rw [parsePrimary, run_get_bind] at h
      cases htoken : c.token with
      | mark m =>
          cases m with
          | minus | less | leftParen | leftBrace | leftBracket =>
              simp [Opens, storageOf?, Token.closes]
          | _ =>
              rw [htoken] at h
              cases h
      | keyword k =>
          cases k with
          | codeblock => simp [Opens, storageOf?, Token.closes]
          | _ =>
              rw [htoken] at h
              cases h
      | type | eof =>
          rw [htoken] at h
          cases h
      | _ => simp [Opens, storageOf?, Token.closes]

theorem opens_of_parseBinary {r : Expr × Cursor} (h : parseBinary constants least n c = .ok r) :
    Opens c.token := by
  obtain _ | _ | n := n
  · cases h
  · cases h
  · rw [parseBinary] at h
    obtain ⟨_, _, hoperand, -⟩ := run_bind_eq_ok.mp h
    rw [parsePostfix] at hoperand
    obtain ⟨_, _, hprimary, -⟩ := run_bind_eq_ok.mp hoperand
    exact opens_of_parsePrimary hprimary

theorem opens_of_parseExpr {r : Expr × Cursor} (h : parseExpr constants n c = .ok r) :
    Opens c.token := by
  cases n with
  | zero => cases h
  | succ n =>
      rw [parseExpr] at h
      obtain ⟨_, _, hbinary, -⟩ := run_bind_eq_ok.mp h
      exact opens_of_parseBinary hbinary

theorem assignTo_eq_ok {left value e : Expr} {equals : Span} {d : Cursor}
    (h : assignTo left value equals c = .ok (e, d)) :
    d = c ∧ ∀ c', assignTo left value equals c' = .ok (e, c') := by
  cases left with
  | «variable» | index =>
      cases h
      exact ⟨rfl, fun _ => rfl⟩
  | _ => cases h

end

theorem ne_of_opens {t u : Token} (h : Opens t) (hu : u.closes) : t ≠ u := by
  rintro rfl
  obtain ⟨-, -, -, hcloses⟩ := h
  rw [hu] at hcloses
  cases hcloses

theorem mark_of_binaryOp? {t : Token} {operator : BinaryOp × Nat × Bool}
    (h : binaryOp? t = some operator) :
    ∃ m, t = .mark m ∧ (m ≠ .dot ∧ m ≠ .semicolon ∧ m ≠ .colon) := by
  unfold binaryOp? at h
  split at h
  case h_6 => cases h
  all_goals exact ⟨_, rfl, by simp⟩

theorem token_of_parseEntries {m : Nat} {ts : List Token} {r : List (String × Expr) × Cursor}
    (h : parseEntries [] m (ahead ts) = .ok r) : (ahead ts).token ≠ .mark .rightBrace := by
  cases m with
  | zero => cases h
  | succ m =>
      obtain ⟨key, us, rfl, -⟩ := expectString_bind_eq_ok h
      simp

theorem token_of_parseItems {m : Nat} {ts : List Token} {r : List Expr × Cursor}
    (h : parseItems [] m (ahead ts) = .ok r) : (ahead ts).token ≠ .mark .rightBracket := by
  cases m with
  | zero => cases h
  | succ m =>
      obtain ⟨_, _, hexpr, -⟩ := run_bind_eq_ok.mp h
      exact ne_of_opens (opens_of_parseExpr hexpr) rfl

end Parser

end DiamondScript
