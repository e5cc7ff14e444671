import DiamondScript.Proofs.Grammar
import DiamondScript.Proofs.Steps

namespace DiamondScript

namespace Cursor

def tokens (c : Cursor) : List Token := c.rest.map Lexeme.token

def Closed (c : Cursor) : Prop := c.tokens.getLast? = some .eof

/-- The tokens between two places, none of them the end of file. -/
structure Took (c : Cursor) (ts : List Token) (d : Cursor) : Prop where
  tokens_eq : c.tokens = ts ++ d.tokens
  inside : .eof ∉ ts
  closed : d.Closed

variable {c d e : Cursor} {ts us : List Token}

theorem Closed.nil (h : c.Closed) : c.Took [] c := ⟨rfl, List.not_mem_nil, h⟩

theorem Took.append (h : c.Took ts d) (h' : d.Took us e) : c.Took (ts ++ us) e := by
  refine ⟨?_, ?_, h'.closed⟩
  · rw [h.tokens_eq, h'.tokens_eq, List.append_assoc]
  · rw [List.mem_append]
    exact fun hm => hm.elim h.inside h'.inside

theorem Took.cons {t : Token} (h : c.Took [t] d) (h' : d.Took ts e) : c.Took (t :: ts) e :=
  h.append h'

theorem Closed.advance (h : c.Closed) {t : Token} (ht : c.token = t) (hne : t ≠ .eof) :
    c.Took [t] c.advance := by
  subst ht
  obtain ⟨lastEnd, _ | ⟨l, _ | ⟨next, rest⟩⟩⟩ := c
  · cases h
  · simp only [Closed, tokens, List.map_cons, List.map_nil, List.getLast?_singleton,
      Option.some.injEq] at h
    exact absurd h hne
  · refine ⟨rfl, ?_, ?_⟩
    · simpa using Ne.symm hne
    · rw [Closed, tokens, List.map_cons, List.map_cons, List.getLast?_cons_cons] at h
      exact h

theorem Closed.advance_eq (h : c.Closed) (hne : c.token ≠ .eof) :
    c.advance.lastEnd = c.span.stop ∧ c.advance.token = c.following := by
  have htook := h.advance rfl hne
  obtain ⟨lastEnd, _ | ⟨l, _ | ⟨next, rest⟩⟩⟩ := c
  · exact absurd rfl hne
  · exact absurd htook.tokens_eq (by simp [tokens, Cursor.advance])
  · exact ⟨rfl, rfl⟩

end Cursor

namespace Parser

open Grammar

section

variable {α β : Type}

/-- What the parser takes from closed tokens is a phrase for its result. -/
def Reads (R : List Token → α → Prop) (p : Parse α) : Prop :=
  ∀ c a d, c.Closed → p c = .ok (a, d) → ∃ ts, c.Took ts d ∧ R ts a

theorem Reads.bind {R : List Token → α → Prop} {p : Parse α} (h : Reads R p) {c : Cursor}
    (hc : c.Closed) {f : α → Parse β} {r : β × Cursor} (hr : (p >>= f) c = .ok r) :
    ∃ a d ts, c.Took ts d ∧ R ts a ∧ f a d = .ok r := by
  obtain ⟨a, d, hp, hf⟩ := run_bind_eq_ok.mp hr
  obtain ⟨ts, hts, hR⟩ := h c a d hc hp
  exact ⟨a, d, ts, hts, hR, hf⟩

end

theorem reads_eat (t : Token) (ht : t ≠ .eof) :
    Reads (fun ts b => ts = ifPresent b t) (eat t) := by
  intro c b d hc h
  rw [eat, run_peek_bind] at h
  split at h
  case isTrue htoken =>
    cases h
    exact ⟨_, hc.advance htoken ht, rfl⟩
  case isFalse =>
    cases h
    exact ⟨_, hc.nil, rfl⟩

theorem reads_eatMark (m : Mark) : Reads (fun ts b => ts = ifPresent b (.mark m)) (eat (.mark m)) :=
  reads_eat _ nofun

theorem reads_expect (t : Token) (ht : t ≠ .eof) (what : String) :
    Reads (fun ts _ => ts = [t]) (expect t what) := by
  intro c s d hc h
  rw [expect, run_get_bind] at h
  split at h
  case isTrue htoken =>
    cases h
    exact ⟨_, hc.advance htoken ht, rfl⟩
  case isFalse => cases h

theorem reads_expectKeyword (k : Keyword) (what : String) :
    Reads (fun ts _ => ts = [.keyword k]) (expect (.keyword k) what) :=
  reads_expect (.keyword k) nofun what

theorem reads_expectMark (m : Mark) (what : String) :
    Reads (fun ts _ => ts = [.mark m]) (expectMark m what) :=
  reads_expect (.mark m) nofun what

theorem reads_expectIdent (what : String) :
    Reads (fun ts r => ts = [.ident r.1]) (expectIdent what) := by
  intro c r d hc h
  rw [expectIdent, run_get_bind] at h
  cases htoken : c.token with
  | ident name =>
      rw [htoken] at h
      cases h
      exact ⟨_, hc.advance htoken nofun, rfl⟩
  | _ =>
      rw [htoken] at h
      cases h

theorem reads_expectString (what : String) :
    Reads (fun ts s => ts = [.string s]) (expectString what) := by
  intro c s d hc h
  rw [expectString, run_peek_bind] at h
  cases htoken : c.token with
  | string s =>
      rw [htoken] at h
      cases h
      exact ⟨_, hc.advance htoken nofun, rfl⟩
  | _ =>
      rw [htoken] at h
      cases h

theorem reads_expectVarName : Reads Name expectVarName := by
  intro c name d hc h
  rw [expectVarName, run_peek_bind] at h
  cases htoken : c.token with
  | ident name =>
      rw [htoken] at h
      cases h
      exact ⟨_, hc.advance htoken nofun, .plain name⟩
  | varName name =>
      rw [htoken] at h
      cases h
      exact ⟨_, hc.advance htoken nofun, .quoted name⟩
  | _ =>
      rw [htoken] at h
      cases h

theorem reads_takeString : Reads (fun ts s => ts = (s.map .string).toList) takeString := by
  intro c s d hc h
  rw [takeString, run_peek_bind] at h
  cases htoken : c.token with
  | string s =>
      rw [htoken] at h
      cases h
      exact ⟨_, hc.advance htoken nofun, rfl⟩
  | _ =>
      rw [htoken] at h
      cases h
      exact ⟨_, hc.nil, rfl⟩

theorem reads_takeTarget : Reads (fun ts t => ts = (t.map .target).toList) takeTarget := by
  intro c t d hc h
  rw [takeTarget, run_peek_bind] at h
  cases htoken : c.token with
  | target t =>
      rw [htoken] at h
      cases h
      exact ⟨_, hc.advance htoken nofun, rfl⟩
  | _ =>
      rw [htoken] at h
      cases h
      exact ⟨_, hc.nil, rfl⟩

theorem reads_expectSignedNumber (what : String) :
    Reads SignedNumber (expectSignedNumber what) := by
  intro c x d hc h
  rw [expectSignedNumber] at h
  obtain ⟨negative, c₁, _, h₁, rfl, h⟩ := (reads_eatMark _).bind hc h
  rw [run_peek_bind] at h
  cases htoken : c₁.token with
  | number x =>
      rw [htoken] at h
      cases h
      refine ⟨_, h₁.append (h₁.closed.advance htoken nofun), ?_⟩
      cases negative with
      | false => exact .plain x
      | true => exact .negative x
  | _ =>
      rw [htoken] at h
      cases h

mutual

theorem reads_parseType : ∀ n, Reads TypeTerm (parseType n)
  | 0 => nofun
  | n + 1 => by
      intro c type d hc h
      rw [parseType, run_peek_bind] at h
      cases htoken : c.token with
      | type base =>
          simp only [htoken, run_advance_bind] at h
          have h₁ := hc.advance htoken nofun
          obtain ⟨applied, c₂, _, h₂, rfl, h⟩ := (reads_eatMark _).bind h₁.closed h
          cases applied with
          | false =>
              cases h
              exact ⟨_, h₁.append h₂, .simple base⟩
          | true =>
              obtain ⟨params, c₃, ts, h₃, hparams, h⟩ :=
                (reads_parseTypeParams n).bind h₂.closed h
              obtain ⟨_, c₄, _, h₄, rfl, h⟩ := (reads_expectMark _ _).bind h₃.closed h
              cases h
              exact ⟨_, h₁.cons (h₂.cons (h₃.append h₄)), .applied base hparams⟩
      | _ =>
          rw [htoken] at h
          cases h

theorem reads_parseTypeParams : ∀ n, Reads (Joined TypeTerm) (parseTypeParams n)
  | 0 => nofun
  | n + 1 => by
      intro c types d hc h
      rw [parseTypeParams] at h
      obtain ⟨type, c₁, ts, h₁, htype, h⟩ := (reads_parseType n).bind hc h
      obtain ⟨more, c₂, _, h₂, rfl, h⟩ := (reads_eatMark _).bind h₁.closed h
      cases more with
      | false =>
          cases h
          refine ⟨_, h₁.append h₂, ?_⟩
          rw [ifPresent, if_neg Bool.false_ne_true, List.append_nil]
          exact .last htype
      | true =>
          obtain ⟨types, c₃, us, h₃, htypes, h⟩ := (reads_parseTypeParams n).bind h₂.closed h
          cases h
          exact ⟨_, h₁.append (h₂.cons h₃), .more htype htypes⟩

end

theorem reads_parseActionRef : Reads Action parseActionRef := by
  intro c ref d hc h
  rw [parseActionRef] at h
  obtain ⟨target, c₁, _, h₁, rfl, h⟩ := reads_takeTarget.bind hc h
  obtain ⟨_, c₂, _, h₂, rfl, h⟩ := (reads_expectKeyword _ _).bind h₁.closed h
  obtain ⟨action, c₃, _, h₃, rfl, h⟩ := (reads_expectString _).bind h₂.closed h
  obtain ⟨_, c₄, _, h₄, rfl, h⟩ := (reads_expectMark _ _).bind h₃.closed h
  obtain ⟨category, c₅, _, h₅, rfl, h⟩ := (reads_expectString _).bind h₄.closed h
  obtain ⟨_, c₆, _, h₆, rfl, h⟩ := (reads_expectMark _ _).bind h₅.closed h
  cases h
  refine ⟨_, h₁.append (h₂.cons (h₃.cons (h₄.cons (h₅.cons h₆)))), ?_⟩
  cases target with
  | none => exact .plain action category
  | some target => exact .targeted target action category

theorem operator_of_binaryOp? {t : Token} {op : BinaryOp} {strength : Nat} {leftward : Bool}
    (h : binaryOp? t = some (op, strength, leftward)) :
    Operator t op strength (if leftward then .left else .right) := by
  unfold binaryOp? at h
  split at h
  all_goals cases h
  · exact .add
  · exact .sub
  · exact .mul
  · exact .div
  · exact .pow

theorem binaryOp?_of_operator {t : Token} {op : BinaryOp} {strength : Nat} {side : Side}
    (h : Operator t op strength side) : binaryOp? t = some (op, strength, side == .left) := by
  cases h <;> rfl

theorem binary_mono {least least' : Nat} {ts : List Token} {e : Expr} (h : Binary least ts e)
    (hle : least' ≤ least) : Binary least' ts e := by
  cases h with
  | operand _ inner => exact .operand _ inner
  | leftward span opSpan sign strong first second =>
      exact .leftward span opSpan sign (Nat.le_trans hle strong) first second
  | rightward span opSpan sign strong first second =>
      exact .rightward span opSpan sign (Nat.le_trans hle strong) first second

def Weaker (least : Nat) (t : Token) : Prop := ∀ op s side, Operator t op s side → s < least

/-- If the token is an operator, the phrase may stand to its left. -/
def Ready (t : Token) (ts : List Token) (left : Expr) : Prop :=
  ∀ op s side, Operator t op s side → Binary (if side = .left then s else s + 1) ts left

/-- The operand behind an operator takes all stronger ones with it. What is read up to there may
therefore stand to the left of the next operator. -/
theorem ready_of_weaker {t u : Token} {op : BinaryOp} {s : Nat} {side : Side}
    (hop : Operator t op s side) (hweaker : Weaker (if side = .left then s + 1 else s) u)
    {ts : List Token} {e : Expr} (h : Binary s ts e) : Ready u ts e := by
  intro op' s' side' hop'
  have hlt := hweaker op' s' side' hop'
  -- Either the second one is no stronger than the first, or its strength refutes `hlt`.
  cases hop <;> cases hop' <;>
    first
    | exact binary_mono h (by decide)
    | exact absurd hlt (by decide)

def Operates (ts : List Token) : Operand → Prop
  | .expr e => Primary ts e
  | .action ref _ => Action ts ref

theorem reads_parseVector {start : Span} {c d : Cursor} {operand : Operand} (hc : c.Closed)
    (htoken : c.token = .mark .less) (h : parseVector start c = .ok (operand, d)) :
    ∃ ts, c.Took ts d ∧ Operates ts operand := by
  rw [parseVector, run_advance_bind] at h
  have h₁ := hc.advance htoken nofun
  obtain ⟨x, c₂, _, h₂, hx, h⟩ := (reads_expectSignedNumber _).bind h₁.closed h
  obtain ⟨_, c₃, _, h₃, rfl, h⟩ := (reads_expectMark _ _).bind h₂.closed h
  obtain ⟨y, c₄, _, h₄, hy, h⟩ := (reads_expectSignedNumber _).bind h₃.closed h
  obtain ⟨_, c₅, _, h₅, rfl, h⟩ := (reads_expectMark _ _).bind h₄.closed h
  obtain ⟨z, c₆, _, h₆, hz, h⟩ := (reads_expectSignedNumber _).bind h₅.closed h
  obtain ⟨_, c₇, _, h₇, rfl, h⟩ := (reads_expectMark _ _).bind h₆.closed h
  cases h
  exact ⟨_, h₁.cons (h₂.append (h₃.cons (h₄.append (h₅.cons (h₆.append h₇))))),
    .vector _ hx hy hz⟩

theorem reads_numberOperand (start : Nat) :
    Reads Operates (do
      let x ← expectSignedNumber "expression"
      return .expr (.number ⟨start, ← lastEnd⟩ x)) := by
  intro c operand d hc h
  obtain ⟨x, c₁, ts, h₁, hx, h⟩ := (reads_expectSignedNumber _).bind hc h
  cases h
  exact ⟨ts, h₁, .number _ hx⟩

theorem reads_actionOperand (start : Nat) :
    Reads Operates (do
      let ref ← parseActionRef
      return .action ref ⟨start, ← lastEnd⟩) := by
  intro c operand d hc h
  obtain ⟨ref, c₁, ts, h₁, href, h⟩ := reads_parseActionRef.bind hc h
  cases h
  exact ⟨ts, h₁, href⟩

theorem reads_parseTargeted (start : Span) (target : Target) :
    Reads Operates (parseTargeted [] start target) := by
  intro c operand d hc h
  rw [parseTargeted, run_get_bind] at h
  cases hnext : c.following with
  | keyword k =>
      cases k with
      | codeblock =>
          simp only [hnext] at h
          exact reads_actionOperand _ c operand d hc h
      | _ =>
          rw [hnext] at h
          cases h
  | _ =>
      rw [hnext] at h
      cases h

theorem reads_assignTo {left value e : Expr} {equals : Span} {c d : Cursor}
    (h : assignTo left value equals c = .ok (e, d)) {ts us : List Token} (hleft : Binary 0 ts left)
    (hvalue : Expression us value) :
    d = c ∧ Expression (ts ++ .mark .equals :: us) e := by
  cases left with
  | «variable» place name =>
      cases h
      cases hleft with
      | operand _ inner => exact ⟨rfl, .assign place _ inner hvalue⟩
  | index place object index =>
      cases h
      cases hleft with
      | operand _ inner => exact ⟨rfl, .setIndex place _ inner hvalue⟩
  | _ => cases h

theorem reads_upTo {α β : Type} {R : List Token → List α → Prop} {p : Parse (List α)}
    (hp : Reads R p) {c : Cursor} (hc : c.Closed) {close : Mark} {what : String}
    {f : List α → Parse β} {r : β × Cursor}
    (h : (do
      let as ← if c.token = .mark close then pure [] else p
      let _ ← expectMark close what
      f as : Parse β) c = .ok r) :
    ∃ as d ts, c.Took (ts ++ [.mark close]) d ∧ ((ts = [] ∧ as = []) ∨ R ts as) ∧
      f as d = .ok r := by
  split at h
  case isTrue =>
    obtain ⟨as, c₁, hpure, h⟩ := run_bind_eq_ok.mp h
    cases hpure
    obtain ⟨_, d, _, h₁, rfl, h⟩ := (reads_expectMark _ _).bind hc h
    exact ⟨[], d, [], h₁, .inl ⟨rfl, rfl⟩, h⟩
  case isFalse =>
    obtain ⟨as, c₁, ts, h₁, has, h⟩ := hp.bind hc h
    obtain ⟨_, d, _, h₂, rfl, h⟩ := (reads_expectMark _ _).bind h₁.closed h
    exact ⟨as, d, ts, h₁.append h₂, .inr has, h⟩

mutual

theorem reads_parseExpr : ∀ n, Reads Expression (parseExpr [] n)
  | 0 => nofun
  | n + 1 => by
      intro c e d hc h
      rw [parseExpr] at h
      obtain ⟨left, c₁, hleft, h⟩ := run_bind_eq_ok.mp h
      obtain ⟨ts, h₁, hts, -⟩ := reads_parseBinary 0 n c left c₁ hc hleft
      rw [run_get_bind] at h
      split at h
      case isFalse =>
        cases h
        exact ⟨ts, h₁, .value hts⟩
      case isTrue htoken =>
        rw [run_advance_bind] at h
        have h₂ := h₁.closed.advance htoken nofun
        obtain ⟨value, c₃, us, h₃, hvalue, h⟩ := (reads_parseExpr n).bind h₂.closed h
        obtain ⟨rfl, he⟩ := reads_assignTo h hts hvalue
        exact ⟨_, h₁.append (h₂.cons h₃), he⟩

theorem reads_parseBinary (least : Nat) : ∀ n c e d, c.Closed →
    parseBinary [] least n c = .ok (e, d) →
    ∃ ts, c.Took ts d ∧ Binary least ts e ∧ Weaker least d.token
  | 0 => nofun
  | n + 1 => by
      intro c e d hc h
      rw [parseBinary] at h
      obtain ⟨left, c₁, ts, h₁, hleft, h⟩ := (reads_parsePostfix n).bind hc h
      have hready : Ready c₁.token ts left := fun _ _ _ _ => .operand _ hleft
      obtain ⟨us, h₂, he, hweaker⟩ :=
        reads_parseOperators least n c₁ left e d h₁.closed h ts (.operand _ hleft) hready
      exact ⟨_, h₁.append h₂, he, hweaker⟩

theorem reads_parseOperators (least : Nat) : ∀ n c left e d, c.Closed →
    parseOperators [] least left n c = .ok (e, d) →
    ∀ ts, Binary least ts left → Ready c.token ts left →
      ∃ us, c.Took us d ∧ Binary least (ts ++ us) e ∧ Weaker least d.token
  | 0 => nofun
  | n + 1 => by
      intro c left e d hc h ts hleft hready
      rw [parseOperators, run_get_bind] at h
      cases hop : binaryOp? c.token with
      | none =>
          rw [hop] at h
          cases h
          refine ⟨[], hc.nil, by rwa [List.append_nil], ?_⟩
          intro op s side hoperator
          rw [binaryOp?_of_operator hoperator] at hop
          cases hop
      | some operator =>
          obtain ⟨op, s, leftward⟩ := operator
          have hoperator := operator_of_binaryOp? hop
          simp only [hop] at h
          split at h
          case isTrue hlt =>
            cases h
            refine ⟨[], hc.nil, by rwa [List.append_nil], ?_⟩
            intro op' s' side hoperator'
            rw [binaryOp?_of_operator hoperator'] at hop
            cases hop
            exact hlt
          case isFalse hle =>
            have hle : least ≤ s := Nat.le_of_not_lt hle
            have hne : c.token ≠ .eof := by
              intro heof
              rw [heof] at hop
              cases hop
            have h₁ := hc.advance rfl hne
            rw [run_advance_bind] at h
            obtain ⟨right, c₂, hright, h⟩ := run_bind_eq_ok.mp h
            obtain ⟨us, h₂, hus, hweaker⟩ := reads_parseBinary _ n _ right c₂ h₁.closed hright
            have hjoined : Binary s (ts ++ c.token :: us)
                (.binary (left.span.merge right.span) op c.span left right) := by
              have hfirst := hready _ _ _ hoperator
              cases leftward with
              | true => exact .leftward _ _ hoperator (Nat.le_refl s) hfirst hus
              | false => exact .rightward _ _ hoperator (Nat.le_refl s) hfirst hus
            have hready' := ready_of_weaker hoperator (by cases leftward <;> exact hweaker) hjoined
            obtain ⟨vs, h₃, he, hweaker'⟩ := reads_parseOperators least n c₂ _ e d h₂.closed h _
              (binary_mono hjoined hle) hready'
            refine ⟨_, h₁.cons (h₂.append h₃), ?_, hweaker'⟩
            simpa only [List.append_assoc, List.cons_append] using he

theorem reads_parsePostfix : ∀ n, Reads Postfix (parsePostfix [] n)
  | 0 => nofun
  | n + 1 => by
      intro c e d hc h
      rw [parsePostfix] at h
      obtain ⟨operand, c₁, ts, h₁, hoperand, h⟩ := (reads_parsePrimary n).bind hc h
      rw [run_peek_bind] at h
      cases operand with
      | action ref span =>
          dsimp only at h
          split at h
          case isTrue =>
            obtain ⟨args, c₂, us, h₂, hargs, h⟩ := (reads_parseArgs n).bind h₁.closed h
            obtain ⟨vs, rfl, hargs⟩ := hargs
            rw [run_lastEnd_bind] at h
            obtain ⟨ws, h₃, he⟩ := reads_parseIndices n c₂ _ e d h₂.closed h _
              (.action _ hoperand hargs)
            refine ⟨_, (h₁.append h₂).append h₃, he⟩
          case isFalse =>
            obtain ⟨args, c₂, hpure, h⟩ := run_bind_eq_ok.mp h
            cases hpure
            rw [run_lastEnd_bind] at h
            obtain ⟨ws, h₃, he⟩ := reads_parseIndices n c₁ _ e d h₁.closed h _
              (.bareAction _ hoperand)
            exact ⟨_, h₁.append h₃, he⟩
      | expr operand =>
          have hplain (h : parseIndices [] operand n c₁ = .ok (e, d)) :
              ∃ ts, c.Took ts d ∧ Postfix ts e := by
            obtain ⟨ws, h₃, he⟩ := reads_parseIndices n c₁ _ e d h₁.closed h _ (.operand hoperand)
            exact ⟨_, h₁.append h₃, he⟩
          cases operand with
          | «variable» place name =>
              dsimp only at h
              split at h
              case isTrue =>
                obtain ⟨args, c₂, us, h₂, hargs, h⟩ := (reads_parseArgs n).bind h₁.closed h
                obtain ⟨vs, rfl, hargs⟩ := hargs
                rw [run_lastEnd_bind] at h
                obtain ⟨ws, h₃, he⟩ := reads_parseIndices n c₂ _ e d h₂.closed h _
                  (.call place _ hoperand hargs)
                exact ⟨_, (h₁.append h₂).append h₃, he⟩
              case isFalse => exact hplain h
          | _ => exact hplain h

theorem reads_parseIndices : ∀ n c object e d, c.Closed →
    parseIndices [] object n c = .ok (e, d) →
    ∀ ts, Postfix ts object → ∃ us, c.Took us d ∧ Postfix (ts ++ us) e
  | 0 => nofun
  | n + 1 => by
      intro c object e d hc h ts hobject
      rw [parseIndices] at h
      obtain ⟨bracket, c₁, _, h₁, rfl, h⟩ := (reads_eatMark _).bind hc h
      cases bracket with
      | true =>
          obtain ⟨index, c₂, us, h₂, hindex, h⟩ := (reads_parseExpr n).bind h₁.closed h
          obtain ⟨_, c₃, _, h₃, rfl, h⟩ := (reads_expectMark _ _).bind h₂.closed h
          rw [run_lastEnd_bind] at h
          obtain ⟨vs, h₄, he⟩ := reads_parseIndices n c₃ _ e d h₃.closed h _
            (.index _ hobject hindex)
          refine ⟨_, (h₁.append (h₂.append h₃)).append h₄, ?_⟩
          rwa [← List.append_assoc]
      | false =>
          obtain ⟨dot, c₂, _, h₂, rfl, h⟩ := (reads_eatMark _).bind h₁.closed h
          cases dot with
          | true =>
              obtain ⟨⟨key, span⟩, c₃, _, h₃, rfl, h⟩ := (reads_expectIdent _).bind h₂.closed h
              obtain ⟨vs, h₄, he⟩ := reads_parseIndices n c₃ _ e d h₃.closed h _
                (.key _ span key hobject)
              refine ⟨_, (h₁.append (h₂.append h₃)).append h₄, ?_⟩
              rwa [← List.append_assoc]
          | false =>
              cases h
              refine ⟨_, h₁.append h₂, ?_⟩
              simpa [ifPresent] using hobject

theorem reads_parseArgs : ∀ n, Reads (fun ts args => ∃ us,
    ts = .mark .leftParen :: (us ++ [.mark .rightParen]) ∧ Listed Expression us args)
    (parseArgs [] n)
  | 0 => nofun
  | n + 1 => by
      intro c args d hc h
      rw [parseArgs] at h
      obtain ⟨_, c₁, _, h₁, rfl, h⟩ := (reads_expectMark _ _).bind hc h
      obtain ⟨args, c₂, us, h₂, hargs, h⟩ := (reads_parseArgsRest n).bind h₁.closed h
      obtain ⟨_, c₃, _, h₃, rfl, h⟩ := (reads_expectMark _ _).bind h₂.closed h
      cases h
      exact ⟨_, h₁.cons (h₂.append h₃), us, rfl, hargs⟩

theorem reads_parseArgsRest : ∀ n, Reads (Listed Expression) (parseArgsRest [] n)
  | 0 => nofun
  | n + 1 => by
      intro c args d hc h
      rw [parseArgsRest, run_peek_bind] at h
      split at h
      case isTrue =>
        cases h
        exact ⟨_, hc.nil, .nil⟩
      case isFalse =>
        obtain ⟨arg, c₁, ts, h₁, harg, h⟩ := (reads_parseExpr n).bind hc h
        rw [run_peek_bind] at h
        split at h
        case isTrue =>
          cases h
          exact ⟨_, h₁, .last harg⟩
        case isFalse =>
          obtain ⟨_, c₂, _, h₂, rfl, h⟩ := (reads_expectMark _ _).bind h₁.closed h
          obtain ⟨args, c₃, us, h₃, hargs, h⟩ := (reads_parseArgsRest n).bind h₂.closed h
          cases h
          exact ⟨_, h₁.append (h₂.cons h₃), .more harg hargs⟩

theorem reads_parsePrimary : ∀ n, Reads Operates (parsePrimary [] n)
  | 0 => nofun
  | n + 1 => by
      intro c operand d hc h
      rw [parsePrimary, run_get_bind] at h
      cases htoken : c.token with
      | target t =>
          simp only [htoken] at h
          exact reads_parseTargeted _ t c operand d hc h
      | keyword k =>
          cases k with
          | codeblock =>
              simp only [htoken] at h
              exact reads_actionOperand _ c operand d hc h
          | _ =>
              rw [htoken] at h
              cases h
      | ident name =>
          rw [htoken] at h
          cases h
          exact ⟨_, hc.advance htoken nofun, .name _ (.plain name)⟩
      | varName name =>
          rw [htoken] at h
          cases h
          exact ⟨_, hc.advance htoken nofun, .name _ (.quoted name)⟩
      | number x =>
          simp only [htoken] at h
          exact reads_numberOperand _ c operand d hc h
      | string s =>
          rw [htoken] at h
          cases h
          exact ⟨_, hc.advance htoken nofun, .str _ s⟩
      | styledText s =>
          rw [htoken] at h
          cases h
          exact ⟨_, hc.advance htoken nofun, .styledText _ s⟩
      | mark m =>
          cases m with
          | minus =>
              simp only [htoken] at h
              exact reads_numberOperand _ c operand d hc h
          | less =>
              simp only [htoken] at h
              exact reads_parseVector hc htoken h
          | leftParen =>
              simp only [htoken, run_advance_bind, run_peek_bind] at h
              have h₁ := hc.advance htoken nofun
              cases hinner : c.advance.token with
              | type base =>
                  simp only [hinner] at h
                  obtain ⟨type, c₂, ts, h₂, htype, h⟩ := (reads_parseType n).bind h₁.closed h
                  obtain ⟨_, c₃, _, h₃, rfl, h⟩ := (reads_expectMark _ _).bind h₂.closed h
                  obtain ⟨value, c₄, hvalue, h⟩ := run_bind_eq_ok.mp h
                  obtain ⟨us, h₄, hus, -⟩ := reads_parseBinary 0 n c₃ value c₄ h₃.closed hvalue
                  cases h
                  exact ⟨_, h₁.cons (h₂.append (h₃.cons h₄)), .cast _ htype hus⟩
              | _ =>
                  simp only [hinner] at h
                  obtain ⟨inner, c₂, ts, h₂, hinner, h⟩ := (reads_parseExpr n).bind h₁.closed h
                  obtain ⟨_, c₃, _, h₃, rfl, h⟩ := (reads_expectMark _ _).bind h₂.closed h
                  cases h
                  exact ⟨_, h₁.cons (h₂.append h₃), .group hinner⟩
          | leftBrace =>
              simp only [htoken, run_advance_bind, run_peek_bind] at h
              have h₁ := hc.advance htoken nofun
              obtain ⟨entries, c₂, ts, h₂, hentries, h⟩ :=
                reads_upTo (reads_parseEntries n) h₁.closed h
              cases h
              refine ⟨_, h₁.cons h₂, ?_⟩
              rcases hentries with ⟨rfl, rfl⟩ | hentries
              · exact .emptyDict _
              · exact .dict _ hentries
          | leftBracket =>
              simp only [htoken, run_advance_bind, run_peek_bind] at h
              have h₁ := hc.advance htoken nofun
              obtain ⟨items, c₂, ts, h₂, hitems, h⟩ := reads_upTo (reads_parseItems n) h₁.closed h
              cases h
              refine ⟨_, h₁.cons h₂, ?_⟩
              rcases hitems with ⟨rfl, rfl⟩ | hitems
              · exact .emptyList _
              · exact .list _ hitems
          | _ =>
              rw [htoken] at h
              cases h
      | _ =>
          rw [htoken] at h
          cases h

theorem reads_parseEntries : ∀ n, Reads (Joined Entry) (parseEntries [] n)
  | 0 => nofun
  | n + 1 => by
      intro c entries d hc h
      rw [parseEntries] at h
      obtain ⟨key, c₁, _, h₁, rfl, h⟩ := (reads_expectString _).bind hc h
      obtain ⟨_, c₂, _, h₂, rfl, h⟩ := (reads_expectMark _ _).bind h₁.closed h
      obtain ⟨value, c₃, ts, h₃, hvalue, h⟩ := (reads_parseExpr n).bind h₂.closed h
      have hentry : Entry (.string key :: .mark .colon :: ts) (key, value) := .mk key hvalue
      rw [run_peek_bind] at h
      split at h
      case isTrue =>
        cases h
        exact ⟨_, h₁.cons (h₂.cons h₃), .last hentry⟩
      case isFalse =>
        obtain ⟨_, c₄, _, h₄, rfl, h⟩ := (reads_expectMark _ _).bind h₃.closed h
        obtain ⟨entries, c₅, us, h₅, hentries, h⟩ := (reads_parseEntries n).bind h₄.closed h
        cases h
        exact ⟨_, (h₁.cons (h₂.cons h₃)).append (h₄.cons h₅), .more hentry hentries⟩

theorem reads_parseItems : ∀ n, Reads (Joined Expression) (parseItems [] n)
  | 0 => nofun
  | n + 1 => by
      intro c items d hc h
      rw [parseItems] at h
      obtain ⟨item, c₁, ts, h₁, hitem, h⟩ := (reads_parseExpr n).bind hc h
      rw [run_peek_bind] at h
      split at h
      case isTrue =>
        cases h
        exact ⟨_, h₁, .last hitem⟩
      case isFalse =>
        obtain ⟨_, c₂, _, h₂, rfl, h⟩ := (reads_expectMark _ _).bind h₁.closed h
        obtain ⟨items, c₃, us, h₃, hitems, h⟩ := (reads_parseItems n).bind h₂.closed h
        cases h
        exact ⟨_, h₁.append (h₂.cons h₃), .more hitem hitems⟩

end

theorem kept_of_storageOf? {t : Token} {storage : Storage} (h : storageOf? t = some storage) :
    Kept t storage := by
  unfold storageOf? at h
  split at h
  all_goals cases h
  · exact .game
  · exact .save
  · exact .var
  · exact .local

theorem reads_parseInitial (allowed : Bool) (n : Nat) :
    Reads (fun ts value => Initial ts value ∧ (allowed = false → value = none))
      (parseInitial [] allowed n) := by
  intro c value d hc h
  cases allowed with
  | false =>
      cases h
      exact ⟨_, hc.nil, .none, fun _ => rfl⟩
  | true =>
      obtain ⟨given, c₁, _, h₁, rfl, h⟩ := (reads_eatMark _).bind hc h
      cases given with
      | false =>
          cases h
          exact ⟨_, h₁, .none, nofun⟩
      | true =>
          obtain ⟨e, c₂, ts, h₂, he, h⟩ := (reads_parseExpr n).bind h₁.closed h
          cases h
          exact ⟨_, h₁.cons h₂, .some he, nofun⟩

theorem reads_parseVarDef {withValue : Bool} {n : Nat} {c d : Cursor} {v : VarDef}
    (hc : c.Closed) (h : parseVarDef [] withValue n c = .ok (v, d)) :
    ∃ ts, c.Took ts d ∧ Variable ts v ∧ storageOf? c.token = some v.storage ∧
      (withValue = false → v.value = none) := by
  rw [parseVarDef, run_spanHere_bind, run_peek_bind] at h
  cases hstorage : storageOf? c.token with
  | none =>
      rw [hstorage] at h
      cases h
  | some storage =>
      have hkept := kept_of_storageOf? hstorage
      have hne : c.token ≠ .eof := by
        intro heof
        rw [heof] at hkept
        cases hkept
      simp only [hstorage, run_advance_bind] at h
      have h₁ := hc.advance rfl hne
      obtain ⟨name, c₂, ns, h₂, hname, h⟩ := reads_expectVarName.bind h₁.closed h
      obtain ⟨_, c₃, _, h₃, rfl, h⟩ := (reads_expectMark _ _).bind h₂.closed h
      obtain ⟨type, c₄, ts, h₄, htype, h⟩ := (reads_parseType n).bind h₃.closed h
      obtain ⟨value, c₅, vs, h₅, ⟨hvalue, hnone⟩, h⟩ :=
        (reads_parseInitial withValue n).bind h₄.closed h
      obtain ⟨_, c₆, _, h₆, rfl, h⟩ := (reads_expectMark _ _).bind h₅.closed h
      cases h
      exact ⟨_, h₁.cons (h₂.append (h₃.cons (h₄.append (h₅.append h₆)))),
        .mk _ hkept hname htype hvalue, rfl, hnone⟩

theorem reads_parseParam (n : Nat) : Reads Parameter (parseParam n) := by
  intro c param d hc h
  rw [parseParam] at h
  obtain ⟨output, c₁, _, h₁, rfl, h⟩ := (reads_eat (.keyword .out) nofun).bind hc h
  obtain ⟨⟨name, span⟩, c₂, _, h₂, rfl, h⟩ := (reads_expectIdent _).bind h₁.closed h
  obtain ⟨_, c₃, _, h₃, rfl, h⟩ := (reads_expectMark _ _).bind h₂.closed h
  obtain ⟨type, c₄, ts, h₄, htype, h⟩ := (reads_parseType n).bind h₃.closed h
  obtain ⟨plural, c₅, _, h₅, rfl, h⟩ := (reads_eatMark _).bind h₄.closed h
  obtain ⟨optional, c₆, _, h₆, rfl, h⟩ := (reads_eatMark _).bind h₅.closed h
  obtain ⟨description, c₇, _, h₇, rfl, h⟩ := reads_takeString.bind h₆.closed h
  cases h
  exact ⟨_, h₁.append (h₂.cons (h₃.cons (h₄.append (h₅.append (h₆.append h₇))))),
    .mk name optional plural output description htype⟩

theorem reads_parseParams : ∀ n, Reads (Listed Parameter) (parseParams n)
  | 0 => nofun
  | n + 1 => by
      intro c params d hc h
      rw [parseParams, run_peek_bind] at h
      split at h
      case isTrue =>
        cases h
        exact ⟨_, hc.nil, .nil⟩
      case isFalse =>
        obtain ⟨param, c₁, ts, h₁, hparam, h⟩ := (reads_parseParam n).bind hc h
        rw [run_peek_bind] at h
        split at h
        case isTrue =>
          cases h
          exact ⟨_, h₁, .last hparam⟩
        case isFalse =>
          obtain ⟨_, c₂, _, h₂, rfl, h⟩ := (reads_expectMark _ _).bind h₁.closed h
          obtain ⟨params, c₃, us, h₃, hparams, h⟩ := (reads_parseParams n).bind h₂.closed h
          cases h
          exact ⟨_, h₁.append (h₂.cons h₃), .more hparam hparams⟩

theorem reads_parseStmt (n : Nat) : Reads Statement (parseStmt [] n) := by
  intro c stmt d hc h
  rw [parseStmt, run_peek_bind] at h
  split at h
  case isTrue =>
    obtain ⟨v, c₁, hv, h⟩ := run_bind_eq_ok.mp h
    obtain ⟨ts, h₁, hvariable, -⟩ := reads_parseVarDef hc hv
    cases h
    exact ⟨ts, h₁, .var hvariable⟩
  case isFalse =>
    rw [run_spanHere_bind] at h
    obtain ⟨e, c₁, ts, h₁, he, h⟩ := (reads_parseExpr n).bind hc h
    split at h
    case isTrue heffect =>
      obtain ⟨_, c₂, _, h₂, rfl, h⟩ := (reads_expectMark _ _).bind h₁.closed h
      cases h
      exact ⟨_, h₁.append h₂, .expr he heffect⟩
    case isFalse => cases h

theorem reads_parseBody : ∀ n, Reads Body (parseBody [] n)
  | 0 => nofun
  | n + 1 => by
      intro c body d hc h
      have hmore (h : (do
          let stmt ← parseStmt [] n
          let stmts ← parseBody [] n
          return stmt :: stmts : Parse (List Stmt)) c = .ok (body, d)) :
          ∃ ts, c.Took ts d ∧ Body ts body := by
        obtain ⟨stmt, c₁, ts, h₁, hstmt, h⟩ := (reads_parseStmt n).bind hc h
        obtain ⟨stmts, c₂, us, h₂, hstmts, h⟩ := (reads_parseBody n).bind h₁.closed h
        cases h
        exact ⟨_, h₁.append h₂, .cons hstmt hstmts⟩
      rw [parseBody, run_peek_bind] at h
      cases htoken : c.token with
      | eof =>
          rw [htoken] at h
          cases h
      | mark m =>
          cases m with
          | rightBrace =>
              rw [htoken] at h
              cases h
              exact ⟨_, hc.nil, .nil⟩
          | _ =>
              rw [htoken] at h
              exact hmore h
      | _ =>
          rw [htoken] at h
          exact hmore h

theorem reads_parseFunc (n : Nat) : Reads Function (parseFunc [] n) := by
  intro c func d hc h
  rw [parseFunc] at h
  obtain ⟨_, c₁, _, h₁, rfl, h⟩ := (reads_expectKeyword _ _).bind hc h
  obtain ⟨⟨name, span⟩, c₂, _, h₂, rfl, h⟩ := (reads_expectIdent _).bind h₁.closed h
  obtain ⟨_, c₃, _, h₃, rfl, h⟩ := (reads_expectMark _ _).bind h₂.closed h
  obtain ⟨params, c₄, ts, h₄, hparams, h⟩ := (reads_parseParams n).bind h₃.closed h
  obtain ⟨_, c₅, _, h₅, rfl, h⟩ := (reads_expectMark _ _).bind h₄.closed h
  obtain ⟨declared, c₆, _, h₆, rfl, h⟩ := (reads_eatMark _).bind h₅.closed h
  cases declared with
  | true =>
      cases h
      exact ⟨_, h₁.cons (h₂.cons (h₃.cons (h₄.append (h₅.cons h₆)))),
        .declared name span hparams⟩
  | false =>
      obtain ⟨_, c₇, _, h₇, rfl, h⟩ := (reads_expectMark _ _).bind h₆.closed h
      obtain ⟨body, c₈, us, h₈, hbody, h⟩ := (reads_parseBody n).bind h₇.closed h
      obtain ⟨_, c₉, _, h₉, rfl, h⟩ := (reads_expectMark _ _).bind h₈.closed h
      cases h
      exact ⟨_, h₁.cons (h₂.cons (h₃.cons (h₄.append (h₅.cons
        (h₆.append (h₇.cons (h₈.append h₉))))))), .defined name span hparams hbody⟩

theorem reads_parseDefinitions : ∀ n c definitions d, c.Closed →
    .keyword .const ∉ c.tokens → parseDefinitions [] n c = .ok (definitions, d) →
    ∃ ts, c.Took ts d ∧ Program ts definitions ∧ d.token = .eof
  | 0 => nofun
  | n + 1 => by
      intro c definitions d hc hconst h
      have hvar (hglobal : ∀ s, storageOf? c.token = some s → s = .game ∨ s = .save)
          (h : (do
            let v ← parseVarDef [] false n
            return .var v :: (← parseDefinitions [] n) : Parse (List Definition)) c =
            .ok (definitions, d)) :
          ∃ ts, c.Took ts d ∧ Program ts definitions ∧ d.token = .eof := by
        obtain ⟨v, c₁, hv, h⟩ := run_bind_eq_ok.mp h
        obtain ⟨ts, h₁, hvariable, hstorage, hnone⟩ := reads_parseVarDef hc hv
        obtain ⟨rest, c₂, hrest, h⟩ := run_bind_eq_ok.mp h
        cases h
        obtain ⟨us, h₂, hprogram, heof⟩ := reads_parseDefinitions n c₁ rest d h₁.closed
          (fun hm => hconst (h₁.tokens_eq ▸ List.mem_append_right ts hm)) hrest
        exact ⟨_, h₁.append h₂, .var hvariable (hglobal _ hstorage) (hnone rfl) hprogram, heof⟩
      rw [parseDefinitions, run_peek_bind] at h
      cases htoken : c.token with
      | eof =>
          rw [htoken] at h
          cases h
          exact ⟨_, hc.nil, .nil, htoken⟩
      | keyword k =>
          cases k with
          | game =>
              rw [htoken] at h hvar
              exact hvar (by rintro _ ⟨⟩; exact .inl rfl) h
          | save =>
              rw [htoken] at h hvar
              exact hvar (by rintro _ ⟨⟩; exact .inr rfl) h
          | func =>
              simp only [htoken] at h
              obtain ⟨func, c₁, ts, h₁, hfunc, h⟩ := (reads_parseFunc n).bind hc h
              obtain ⟨rest, c₂, hrest, h⟩ := run_bind_eq_ok.mp h
              cases h
              obtain ⟨us, h₂, hprogram, heof⟩ := reads_parseDefinitions n c₁ rest d h₁.closed
                (fun hm => hconst (h₁.tokens_eq ▸ List.mem_append_right ts hm)) hrest
              exact ⟨_, h₁.append h₂, .func hfunc hprogram, heof⟩
          | const =>
              have hone := hc.advance htoken nofun
              exact absurd (hone.tokens_eq ▸ List.mem_cons_self) hconst
          | _ =>
              rw [htoken] at h
              cases h
      | _ =>
          rw [htoken] at h
          cases h

end Parser

/-- The parser accepts only sentences of the grammar and drops no token: what it reads is all that
stands before the first end of file. -/
theorem parse_sentence {lexemes : List Lexeme} {definitions : List Definition}
    (hclosed : (lexemes.map Lexeme.token).getLast? = some .eof)
    (hconst : Token.keyword .const ∉ lexemes.map Lexeme.token)
    (h : parse lexemes = .ok definitions) :
    Grammar.Program ((lexemes.map Lexeme.token).takeWhile (· ≠ .eof)) definitions := by
  obtain ⟨⟨definitions', d⟩, hrun, h⟩ := bind_eq_ok.mp h
  cases h
  obtain ⟨ts, htook, hprogram, heof⟩ :=
    Parser.reads_parseDefinitions _ ⟨0, lexemes⟩ definitions d hclosed hconst hrun
  have hbefore : (lexemes.map Lexeme.token).takeWhile (· ≠ .eof) = ts := by
    have htokens : lexemes.map Lexeme.token = ts ++ d.tokens := htook.tokens_eq
    obtain ⟨lastEnd, _ | ⟨l, rest⟩⟩ := d
    · cases htook.closed
    · have hl : l.token = .eof := heof
      have hall : ∀ t ∈ ts, decide (t ≠ .eof) = true := by
        intro t ht
        exact decide_eq_true fun he => htook.inside (he ▸ ht)
      rw [htokens, List.takeWhile_append_of_pos hall, Cursor.tokens, List.map_cons, hl]
      simp
  rw [hbefore]
  exact hprogram

/-- A grouped target, a trailing comma, a key, a signed number and two powers. -/
theorem parse_sentence_grouped :
    let tokens : List Token := [.keyword .func, .ident "f", .mark .leftParen, .keyword .out,
      .ident "a", .mark .colon, .type .list, .mark .less, .type .num, .mark .greater,
      .mark .comma, .mark .rightParen, .mark .leftBrace, .mark .leftParen, .ident "x",
      .mark .rightParen, .mark .equals, .ident "a", .mark .dot, .ident "k", .mark .minus,
      .mark .minus, .number (.ofPattern false 2), .mark .caret, .varName "y", .mark .caret,
      .ident "z", .mark .semicolon, .mark .rightBrace, .eof]
    let lexemes := tokens.map fun t => Lexeme.mk t default
    ∃ definitions, parse lexemes = .ok definitions ∧ definitions.length = 1 ∧
      (lexemes.map Lexeme.token).getLast? = some .eof ∧
      Token.keyword .const ∉ lexemes.map Lexeme.token ∧
      Grammar.Program tokens.dropLast definitions := by
  intro tokens lexemes
  obtain ⟨definitions, h, hone⟩ : ∃ definitions, parse lexemes = .ok definitions ∧
      definitions.length = 1 := ⟨_, rfl, rfl⟩
  have hclosed : (lexemes.map Lexeme.token).getLast? = some .eof := rfl
  have hconst : Token.keyword .const ∉ lexemes.map Lexeme.token := by decide
  exact ⟨definitions, h, hone, hclosed, hconst, parse_sentence hclosed hconst h⟩

end DiamondScript
