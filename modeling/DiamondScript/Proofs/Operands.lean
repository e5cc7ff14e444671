import DiamondScript.Proofs.Rendering
import DiamondScript.Proofs.Steps

namespace DiamondScript

open Style (group)

open Grammar (ifPresent)

namespace Cursor

def ahead (ts : List Token) : Cursor := ⟨0, (ts ++ [Token.eof]).map fun t => ⟨t, .nowhere⟩⟩

section

variable (t u : Token) (ts : List Token)

@[simp] theorem token_ahead : (ahead (t :: ts)).token = t := rfl

@[simp] theorem following_ahead : (ahead (t :: u :: ts)).following = u := rfl

@[simp] theorem span_ahead : (ahead ts).span = .nowhere := by cases ts <;> rfl

@[simp] theorem lastEnd_ahead : (ahead ts).lastEnd = 0 := rfl

@[simp] theorem advance_ahead : (ahead (t :: ts)).advance = ahead ts := by cases ts <;> rfl

end

end Cursor

namespace Parser

open Cursor (ahead)

section

variable {α : Type} {ts : List Token}

@[simp] theorem run_eat_ahead (t : Token) (f : Bool → Parse α) :
    (eat t >>= f) (ahead (t :: ts)) = f true (ahead ts) := by
  rw [run_eat_bind, Cursor.token_ahead, if_pos rfl, Cursor.advance_ahead]

theorem run_eat_other {t : Token} (h : (ahead ts).token ≠ t) (f : Bool → Parse α) :
    (eat t >>= f) (ahead ts) = f false (ahead ts) := by
  rw [run_eat_bind, if_neg h]

@[simp] theorem run_expect_ahead (t : Token) (what : String) (f : Span → Parse α) :
    (expect t what >>= f) (ahead (t :: ts)) = f .nowhere (ahead ts) := by
  rw [run_expect_bind, Cursor.token_ahead, if_pos rfl, Cursor.advance_ahead, Cursor.span_ahead]

@[simp] theorem run_expectMark_ahead (m : Mark) (what : String) (f : Span → Parse α) :
    (expectMark m what >>= f) (ahead (.mark m :: ts)) = f .nowhere (ahead ts) :=
  run_expect_ahead _ _ _

@[simp] theorem run_expectIdent_ahead (name what : String) (f : String × Span → Parse α) :
    (expectIdent what >>= f) (ahead (.ident name :: ts)) = f (name, .nowhere) (ahead ts) := by
  cases ts <;> rfl

@[simp] theorem run_expectString_ahead (s what : String) (f : String → Parse α) :
    (expectString what >>= f) (ahead (.string s :: ts)) = f s (ahead ts) := by
  cases ts <;> rfl

@[simp] theorem run_expectVarName_ahead (style : Style) (name : String) (f : String → Parse α) :
    (expectVarName >>= f) (ahead (style.name name :: ts)) = f name (ahead ts) := by
  unfold Style.name
  split <;> cases ts <;> rfl

@[simp] theorem run_expectSignedNumber_ahead (x : Binary64) (what : String)
    (f : Binary64 → Parse α) :
    (expectSignedNumber what >>= f) (ahead (x.tokens ++ ts)) = f x (ahead ts) := by
  unfold Binary64.tokens
  split
  · rw [expectSignedNumber, bind_assoc, List.cons_append, run_eat_ahead]
    simp [Binary64.neg_neg]
  · rw [expectSignedNumber, bind_assoc, List.cons_append,
      run_eat_other (by simp)]
    simp

@[simp] theorem run_parseActionRef_ahead (ref : ActionRef) (f : ActionRef → Parse α) :
    (parseActionRef >>= f) (ahead (ref.tokens ++ ts)) = f ref (ahead ts) := by
  obtain ⟨action, category, _ | target⟩ := ref
  · simp [parseActionRef, takeTarget, ActionRef.tokens]
  · simp [parseActionRef, takeTarget, ActionRef.tokens]

end

section

variable {ts : List Token}

theorem parseTypeParams_last {n : Nat} {c : Cursor} {type : ValueType}
    (h : parseType n c = .ok (type, ahead (.mark .greater :: ts))) :
    parseTypeParams (n + 1) c = .ok ([type], ahead (.mark .greater :: ts)) := by
  rw [parseTypeParams, run_bind_of_ok h, run_eat_other (by simp)]
  rfl

theorem parseTypeParams_more {n : Nat} {c d : Cursor} {type : ValueType} {types : List ValueType}
    (h : parseType n c = .ok (type, ahead (.mark .comma :: ts)))
    (hrest : parseTypeParams n (ahead ts) = .ok (types, d)) :
    parseTypeParams (n + 1) c = .ok (type :: types, d) := by
  rw [parseTypeParams, run_bind_of_ok h, run_eat_ahead, if_pos rfl, run_bind_of_ok hrest]
  rfl

theorem parseType_applied (base : BaseType) : ∀ {params : List ValueType} {n : Nat},
    2 * ((ValueType.applied params (ValueType.listTokens params)).length + 1) ≤ n →
    (∀ {m : Nat}, 2 * (ValueType.listTokens params).length + 1 ≤ m → params ≠ [] →
      parseTypeParams m (ahead (ValueType.listTokens params ++ .mark .greater :: ts)) =
        .ok (ValueType.writtenAll params, ahead (.mark .greater :: ts))) →
    (ahead ts).token ≠ .mark .less →
    parseType n (ahead (.type base ::
      (ValueType.applied params (ValueType.listTokens params) ++ ts))) =
        .ok (.declared base (ValueType.writtenAll params), ahead ts)
  | [], n + 1, _, _, hts => by
      rw [parseType, run_peek_bind, Cursor.token_ahead]
      dsimp only
      rw [run_advance_bind, Cursor.advance_ahead]
      exact run_eat_other hts _
  | p :: rest, n + 1, hn, hparams, _ => by
      have hlength : 2 * (ValueType.listTokens (p :: rest)).length + 1 ≤ n := by
        simp only [ValueType.applied, List.isEmpty_cons, Bool.false_eq_true, if_false,
          List.length_cons, List.length_append, List.length_nil] at hn
        omega
      rw [parseType, run_peek_bind, Cursor.token_ahead]
      dsimp only
      rw [run_advance_bind, Cursor.advance_ahead, ValueType.applied]
      simp only [List.isEmpty_cons, Bool.false_eq_true, if_false, List.cons_append,
        List.append_assoc, List.nil_append, run_eat_ahead, if_true]
      rw [run_bind_of_ok (hparams hlength (List.cons_ne_nil p rest)), run_expectMark_ahead]
      rfl

end

mutual

theorem parseType_ahead : ∀ (t : ValueType) {n : Nat} {ts : List Token},
    2 * t.tokens.length ≤ n → (ahead ts).token ≠ .mark .less →
      parseType n (ahead (t.tokens ++ ts)) = .ok (t.written, ahead ts)
  | .declared base params, _, _, hn, hts =>
      parseType_applied base hn (parseTypeParams_ahead params) hts
  | .literal base params _, _, _, hn, hts =>
      parseType_applied base hn (parseTypeParams_ahead params) hts

theorem parseTypeParams_ahead : ∀ (types : List ValueType) {n : Nat} {ts : List Token},
    2 * (ValueType.listTokens types).length + 1 ≤ n → types ≠ [] →
      parseTypeParams n (ahead (ValueType.listTokens types ++ .mark .greater :: ts)) =
        .ok (ValueType.writtenAll types, ahead (.mark .greater :: ts))
  | [t], n + 1, ts, hn, _ => by
      rw [ValueType.listTokens] at hn ⊢
      exact parseTypeParams_last (parseType_ahead t (by omega) (by simp))
  | t :: u :: rest, n + 1, ts, hn, _ => by
      rw [ValueType.listTokens, List.length_append, List.length_cons] at hn
      rw [ValueType.listTokens, List.append_assoc, List.cons_append]
      exact parseTypeParams_more (parseType_ahead t (by omega) (by simp))
        (parseTypeParams_ahead (u :: rest) (by omega) (List.cons_ne_nil u rest))

end

end Parser

/-- The tokens that close an expression wherever one is written. -/
def Token.closes : Token → Bool
  | .mark .rightParen | .mark .rightBracket | .mark .rightBrace | .mark .comma
  | .mark .semicolon => true
  | _ => false

namespace Parser

open Cursor (ahead)

section

variable {n least : Nat} {ts : List Token} {c : Cursor} {e : Expr}

theorem parseIndices_stop (hbracket : (ahead ts).token ≠ .mark .leftBracket)
    (hdot : (ahead ts).token ≠ .mark .dot) :
    parseIndices [] e (n + 1) (ahead ts) = .ok (e, ahead ts) := by
  rw [parseIndices, run_eat_other hbracket, if_neg Bool.false_ne_true, run_eat_other hdot]
  rfl

theorem parseOperators_stop (h : binaryOp? (ahead ts).token = none) :
    parseOperators [] least e (n + 1) (ahead ts) = .ok (e, ahead ts) := by
  rw [parseOperators, run_get_bind, h]
  rfl

theorem parsePostfix_of_primary (h : parsePrimary [] n c = .ok (.expr e, ahead ts))
    (hparen : (ahead ts).token ≠ .mark .leftParen) :
    parsePostfix [] (n + 1) c = parseIndices [] e n (ahead ts) := by
  rw [parsePostfix, run_bind_of_ok h, run_peek_bind]
  cases e <;> simp [hparen]

theorem parseBinary_chain {d : Cursor} (h : parsePostfix [] n c = .ok (e, d)) :
    parseBinary [] least (n + 1) c = parseOperators [] least e n d := by
  rw [parseBinary, run_bind_of_ok h]

theorem parseExpr_of_binary (h : parseBinary [] 0 n c = .ok (e, ahead ts))
    (hequals : (ahead ts).token ≠ .mark .equals) :
    parseExpr [] (n + 1) c = .ok (e, ahead ts) := by
  rw [parseExpr, run_bind_of_ok h, run_get_bind, if_neg hequals]
  rfl

theorem parsePostfix_operand (h : parsePrimary [] (n + 1) c = .ok (.expr e, ahead ts))
    (hparen : (ahead ts).token ≠ .mark .leftParen)
    (hbracket : (ahead ts).token ≠ .mark .leftBracket) (hdot : (ahead ts).token ≠ .mark .dot) :
    parsePostfix [] (n + 2) c = .ok (e, ahead ts) := by
  rw [parsePostfix_of_primary h hparen, parseIndices_stop hbracket hdot]

variable (hts : (ahead ts).token.closes)

include hts

theorem ne_of_closes {t : Token} (ht : t.closes = false) : (ahead ts).token ≠ t := by
  rintro rfl
  rw [hts] at ht
  cases ht

theorem binaryOp?_of_closes : binaryOp? (ahead ts).token = none := by
  revert hts
  cases (ahead ts).token with
  | mark m => cases m <;> simp [Token.closes, binaryOp?]
  | _ => simp [Token.closes]

theorem parseIndices_closed : parseIndices [] e (n + 1) (ahead ts) = .ok (e, ahead ts) :=
  parseIndices_stop (ne_of_closes hts rfl) (ne_of_closes hts rfl)

theorem parseBinary_closed (h : parsePostfix [] (n + 1) c = .ok (e, ahead ts)) :
    parseBinary [] least (n + 2) c = .ok (e, ahead ts) := by
  rw [parseBinary_chain h, parseOperators_stop (binaryOp?_of_closes hts)]

theorem parseExpr_closed (h : parsePostfix [] (n + 1) c = .ok (e, ahead ts)) :
    parseExpr [] (n + 3) c = .ok (e, ahead ts) :=
  parseExpr_of_binary (parseBinary_closed hts h) (ne_of_closes hts rfl)

theorem parsePostfix_closed (h : parsePrimary [] (n + 1) c = .ok (.expr e, ahead ts)) :
    parsePostfix [] (n + 2) c = .ok (e, ahead ts) :=
  (parsePostfix_of_primary h (ne_of_closes hts rfl)).trans (parseIndices_closed hts)

end

section

variable (style : Style)

/-- The tokens of an expression never start as a type or a definition does, nor as a list or a
body ends. -/
def Opens (t : Token) : Prop :=
  storageOf? t = none ∧ (∀ base, t ≠ .type base) ∧ t ≠ .eof ∧ t.closes = false

theorem opens_tokens (e : Expr) (ts : List Token) : Opens (ahead (e.tokens style ++ ts)).token := by
  have hname (name : String) (us : List Token) : Opens (ahead (style.name name :: us)).token := by
    rw [Cursor.token_ahead, Style.name]
    split <;> simp [Opens, storageOf?, Token.closes]
  have hnumber (x : Binary64) (us : List Token) : Opens (ahead (x.tokens ++ us)).token := by
    rw [Binary64.tokens]
    split <;> simp [Opens, storageOf?, Token.closes]
  cases e with
  | number span x => exact hnumber x ts
  | «variable» span name => exact hname name ts
  | assign span name value => exact hname name _
  | call span name args => exact hname name _
  | action span ref args =>
      obtain ⟨action, category, _ | target⟩ := ref <;>
        simp [Expr.tokens, ActionRef.tokens, Opens, storageOf?, Token.closes]
  | _ => simp [Expr.tokens, group, Opens, storageOf?, Token.closes]

theorem parsePrimary_group {n : Nat} {ts us : List Token} {e : Expr}
    (h : parseExpr [] n (ahead (ts ++ .mark .rightParen :: us)) =
      .ok (e, ahead (.mark .rightParen :: us)))
    (hopens : Opens (ahead (ts ++ .mark .rightParen :: us)).token) :
    parsePrimary [] (n + 1) (ahead (group ts ++ us)) = .ok (.expr e, ahead us) := by
  rw [parsePrimary, run_get_bind, group, List.cons_append, List.append_assoc]
  simp only [Cursor.token_ahead, run_advance_bind, Cursor.advance_ahead, run_peek_bind,
    List.cons_append, List.nil_append]
  cases htoken : (ahead (ts ++ .mark .rightParen :: us)).token with
  | type base => exact absurd htoken (hopens.2.1 base)
  | _ =>
      dsimp only
      rw [run_bind_of_ok h, run_expectMark_ahead]
      rfl

/-- The parser reads an expression back from its tokens, with whatever closes it behind. -/
def ReadsBack (e : Expr) : Prop :=
  ∀ (n : Nat) (ts : List Token), 8 * (e.tokens style).length ≤ n → (ahead ts).token.closes →
    parseExpr [] n (ahead (e.tokens style ++ ts)) = .ok (e.written, ahead ts)

variable {style} {n : Nat} {ts us : List Token} {e : Expr}

theorem ReadsBack.primary (h : ReadsBack style e) (hn : 8 * (e.tokens style).length ≤ n) :
    parsePrimary [] (n + 1) (ahead (group (e.tokens style) ++ ts)) =
      .ok (.expr e.written, ahead ts) :=
  parsePrimary_group (h n _ hn rfl) (opens_tokens style e _)

theorem ReadsBack.binary (h : ReadsBack style e) (hn : 8 * (e.tokens style).length ≤ n)
    (hts : (ahead ts).token.closes) (least : Nat) :
    parseBinary [] least (n + 3) (ahead (group (e.tokens style) ++ ts)) =
      .ok (e.written, ahead ts) :=
  parseBinary_closed hts (parsePostfix_closed hts (h.primary hn))

theorem ReadsBack.group (h : ReadsBack style e) (hn : 8 * (e.tokens style).length + 4 ≤ n)
    (hts : (ahead ts).token.closes) :
    parseExpr [] n (ahead (group (e.tokens style) ++ ts)) = .ok (e.written, ahead ts) := by
  obtain ⟨m, rfl⟩ := Nat.exists_eq_add_of_le' (Nat.le_trans (Nat.le_add_left 4 _) hn)
  exact parseExpr_closed hts (parsePostfix_closed hts (h.primary (by omega)))

theorem readsBack_of_primary
    (h : ∀ (n : Nat) (ts : List Token), 8 * (e.tokens style).length ≤ n + 4 →
      parsePrimary [] (n + 1) (ahead (e.tokens style ++ ts)) = .ok (.expr e.written, ahead ts)) :
    ReadsBack style e := by
  intro n ts hn hts
  have hpos := e.length_tokens_ne_zero style
  obtain ⟨m, rfl⟩ : ∃ m, n = m + 4 := ⟨n - 4, by omega⟩
  exact parseExpr_closed hts (parsePostfix_closed hts (h m ts hn))

theorem parsePrimary_name (style : Style) (name : String) (ts : List Token) :
    parsePrimary [] (n + 1) (ahead (style.name name :: ts)) =
      .ok (.expr (.variable .nowhere name), ahead ts) := by
  rw [parsePrimary, run_get_bind, Style.name]
  split <;> simp [substitute]

theorem readsBack_variable (span : Span) (name : String) :
    ReadsBack style (.variable span name) :=
  readsBack_of_primary fun _ ts _ => parsePrimary_name style name ts

theorem readsBack_number (span : Span) (x : Binary64) : ReadsBack style (.number span x) := by
  refine readsBack_of_primary fun n ts _ => ?_
  have hrun : (do
      let x ← expectSignedNumber "expression"
      return Operand.expr (.number ⟨0, ← lastEnd⟩ x) : Parse Operand) (ahead (x.tokens ++ ts)) =
        .ok (.expr (.number .nowhere x), ahead ts) := by
    simp
  rw [Expr.tokens, Expr.written, ← hrun, parsePrimary, run_get_bind]
  unfold Binary64.tokens
  split <;> simp only [List.cons_append, Cursor.token_ahead, Cursor.span_ahead]

theorem readsBack_str (span : Span) (s : String) : ReadsBack style (.str span s) := by
  refine readsBack_of_primary fun n ts _ => ?_
  simp [Expr.tokens, Expr.written, parsePrimary]

theorem readsBack_styledText (span : Span) (s : String) : ReadsBack style (.styledText span s) := by
  refine readsBack_of_primary fun n ts _ => ?_
  simp [Expr.tokens, Expr.written, parsePrimary]

theorem readsBack_vector (span : Span) (x y z : Binary64) :
    ReadsBack style (.vector span x y z) := by
  refine readsBack_of_primary fun n ts _ => ?_
  simp [Expr.tokens, Expr.written, parsePrimary, parseVector]

theorem span_written (e : Expr) : e.written.span = .nowhere := by
  cases e <;> simp only [Expr.written, Expr.span]

theorem binaryOp?_token (op : BinaryOp) :
    ∃ strength leftward, binaryOp? op.token = some (op, strength, leftward) := by
  cases op <;> exact ⟨_, _, rfl⟩

theorem parseOperators_once (op : BinaryOp) {left right : Expr} (hleft : left.span = .nowhere)
    (hright : right.span = .nowhere) (hts : (ahead ts).token.closes)
    (h : ∀ least, parseBinary [] least (n + 1) (ahead us) = .ok (right, ahead ts)) :
    parseOperators [] 0 left (n + 2) (ahead (op.token :: us)) =
      .ok (.binary .nowhere op .nowhere left right, ahead ts) := by
  obtain ⟨strength, leftward, hop⟩ := binaryOp?_token op
  rw [parseOperators, run_get_bind, Cursor.token_ahead, hop]
  dsimp only
  rw [if_neg (Nat.not_lt_zero strength), run_advance_bind, Cursor.advance_ahead,
    run_bind_of_ok (h _), parseOperators_stop (binaryOp?_of_closes hts), Cursor.span_ahead, hleft,
    hright]
  rfl

theorem readsBack_binary {left right : Expr} (span opSpan : Span) (op : BinaryOp)
    (hleft : ReadsBack style left) (hright : ReadsBack style right) :
    ReadsBack style (.binary span op opSpan left right) := by
  intro n ts hn hts
  simp only [Expr.tokens, group, List.length_append, List.length_cons, List.length_nil] at hn
  obtain ⟨m, rfl⟩ : ∃ m, n = m + 6 := ⟨n - 6, by omega⟩
  have hop (t : Mark) (us : List Token) (ht : binaryOp? (.mark t) = none) :
      (ahead (op.token :: us)).token ≠ .mark t := by
    rw [Cursor.token_ahead]
    rintro hmark
    obtain ⟨_, _, hsome⟩ := binaryOp?_token op
    rw [hmark, ht] at hsome
    cases hsome
  rw [Expr.tokens, Expr.written, List.append_assoc, List.cons_append]
  have hfirst := parsePostfix_operand (hleft.primary (show _ ≤ m + 2 by omega))
    (hop .leftParen (Style.group (right.tokens style) ++ ts) rfl) (hop .leftBracket _ rfl)
    (hop .dot _ rfl)
  have hsecond := parseOperators_once op (span_written left) (span_written right) hts
    fun least => hright.binary (show _ ≤ m by omega) hts least
  exact parseExpr_of_binary ((parseBinary_chain hfirst).trans hsecond) (ne_of_closes hts rfl)

theorem parseIndices_index {object key : Expr} (hobject : object.span = .nowhere)
    (h : parseExpr [] n (ahead us) = .ok (key, ahead (.mark .rightBracket :: ts))) :
    parseIndices [] object (n + 1) (ahead (.mark .leftBracket :: us)) =
      parseIndices [] (.index .nowhere object key) n (ahead ts) := by
  rw [parseIndices, run_eat_ahead, if_pos rfl, run_bind_of_ok h, run_expectMark_ahead,
    run_lastEnd_bind, Cursor.lastEnd_ahead, hobject]

/-- An index read, whatever follows it but a further index. -/
theorem parsePostfix_index {object key : Expr} (hobject : ReadsBack style object)
    (hkey : ReadsBack style key)
    (hn : 8 * ((object.tokens style).length + (key.tokens style).length) ≤ n)
    (hbracket : (ahead ts).token ≠ .mark .leftBracket) (hdot : (ahead ts).token ≠ .mark .dot) :
    parsePostfix [] (n + 6) (ahead (group (object.tokens style) ++ .mark .leftBracket ::
      (group (key.tokens style) ++ .mark .rightBracket :: ts))) =
        .ok (.index .nowhere object.written key.written, ahead ts) := by
  rw [parsePostfix_of_primary (hobject.primary (by omega)) (by simp),
    parseIndices_index (span_written object) (hkey.group (by omega) rfl),
    parseIndices_stop hbracket hdot]

theorem readsBack_index {object key : Expr} (span : Span) (hobject : ReadsBack style object)
    (hkey : ReadsBack style key) : ReadsBack style (.index span object key) := by
  intro n ts hn hts
  simp only [Expr.tokens, group, List.length_append, List.length_cons, List.length_nil] at hn
  obtain ⟨m, rfl⟩ : ∃ m, n = m + 8 := ⟨n - 8, by omega⟩
  rw [Expr.tokens, Expr.written, List.append_assoc, List.cons_append, List.append_assoc,
    List.cons_append, List.nil_append]
  exact parseExpr_closed hts (parsePostfix_index hobject hkey (by omega)
    (ne_of_closes hts rfl) (ne_of_closes hts rfl))

/-- What an equals sign does behind the left side of an assignment. -/
theorem parseExpr_equals {c : Cursor} {left value : Expr}
    (hleft : parsePostfix [] (n + 1) c = .ok (left, ahead (.mark .equals :: us)))
    (hvalue : parseExpr [] (n + 2) (ahead us) = .ok (value, ahead ts)) :
    parseExpr [] (n + 3) c = assignTo left value .nowhere (ahead ts) := by
  have hbinary : parseBinary [] 0 (n + 2) c = .ok (left, ahead (.mark .equals :: us)) :=
    (parseBinary_chain hleft).trans (parseOperators_stop rfl)
  rw [parseExpr, run_bind_of_ok hbinary, run_get_bind, if_pos (Cursor.token_ahead _ _),
    run_advance_bind, Cursor.advance_ahead, run_bind_of_ok hvalue, Cursor.span_ahead]

theorem readsBack_setIndex {object key value : Expr} (span : Span)
    (hobject : ReadsBack style object) (hkey : ReadsBack style key)
    (hvalue : ReadsBack style value) : ReadsBack style (.setIndex span object key value) := by
  intro n ts hn hts
  simp only [Expr.tokens, group, List.length_append, List.length_cons, List.length_nil] at hn
  obtain ⟨m, rfl⟩ : ∃ m, n = m + 8 := ⟨n - 8, by omega⟩
  rw [Expr.tokens, Expr.written, List.append_assoc, List.cons_append, List.append_assoc,
    List.cons_append, List.cons_append]
  have hleft := parsePostfix_index hobject hkey (show _ ≤ m by omega)
    (show (ahead (.mark .equals :: (Style.group (value.tokens style) ++ ts))).token ≠ _ by simp)
    (by simp)
  rw [parseExpr_equals hleft (hvalue.group (by omega) hts), assignTo, span_written]
  rfl

theorem readsBack_assign {value : Expr} (span : Span) (name : String)
    (hvalue : ReadsBack style value) : ReadsBack style (.assign span name value) := by
  intro n ts hn hts
  simp only [Expr.tokens, group, List.length_append, List.length_cons, List.length_nil] at hn
  obtain ⟨m, rfl⟩ : ∃ m, n = m + 4 := ⟨n - 4, by omega⟩
  rw [Expr.tokens, Expr.written, List.cons_append, List.cons_append]
  have hleft := parsePostfix_operand (n := m) (parsePrimary_name style name
    (.mark .equals :: (Style.group (value.tokens style) ++ ts))) (by simp) (by simp) (by simp)
  rw [parseExpr_equals hleft (hvalue.group (by omega) hts), assignTo, span_written]
  rfl

theorem parseArgsRest_ahead : ∀ (items : List Expr), (∀ e ∈ items, ReadsBack style e) →
    ∀ {n : Nat} {ts : List Token}, 8 * (Expr.itemTokens style items).length + 1 ≤ n →
      parseArgsRest [] n (ahead (Expr.itemTokens style items ++ .mark .rightParen :: ts)) =
        .ok (Expr.writtenItems items, ahead (.mark .rightParen :: ts))
  | [], _, n + 1, ts, _ => by
      rw [parseArgsRest]
      rfl
  | [e], h, n + 1, ts, hn => by
      simp only [Expr.itemTokens, group, List.length_append, List.length_cons] at hn
      have harg := (h e List.mem_cons_self).group (show _ ≤ n by omega)
        (show (ahead (.mark .rightParen :: ts)).token.closes from rfl)
      rw [Expr.itemTokens, parseArgsRest, run_peek_bind, if_neg (by simp [group]),
        run_bind_of_ok harg]
      rfl
  | e :: f :: rest, h, n + 1, ts, hn => by
      simp only [Expr.itemTokens, group, List.length_append, List.length_cons] at hn
      rw [List.forall_mem_cons] at h
      have hrest : parseArgsRest [] n (ahead (Expr.itemTokens style (f :: rest) ++
          .mark .rightParen :: ts)) = _ := parseArgsRest_ahead (f :: rest) h.2 (by omega)
      have harg := h.1.group (show _ ≤ n by omega)
        (show (ahead (.mark .comma :: (Expr.itemTokens style (f :: rest) ++
          .mark .rightParen :: ts))).token.closes from rfl)
      rw [Expr.itemTokens, List.append_assoc, List.cons_append, parseArgsRest, run_peek_bind,
        if_neg (by simp [group]), run_bind_of_ok harg, run_peek_bind, if_neg (by simp),
        run_expectMark_ahead, run_bind_of_ok hrest]
      rfl

theorem parseItems_ahead : ∀ (items : List Expr), (∀ e ∈ items, ReadsBack style e) →
    items ≠ [] → ∀ {n : Nat} {ts : List Token}, 8 * (Expr.itemTokens style items).length ≤ n →
      parseItems [] n (ahead (Expr.itemTokens style items ++ .mark .rightBracket :: ts)) =
        .ok (Expr.writtenItems items, ahead (.mark .rightBracket :: ts))
  | [e], h, _, n, ts, hn => by
      simp only [Expr.itemTokens, group, List.length_append, List.length_cons] at hn
      obtain ⟨m, rfl⟩ : ∃ m, n = m + 1 := ⟨n - 1, by omega⟩
      have hitem := (h e List.mem_cons_self).group (show _ ≤ m by omega)
        (show (ahead (.mark .rightBracket :: ts)).token.closes from rfl)
      rw [Expr.itemTokens, parseItems, run_bind_of_ok hitem]
      rfl
  | e :: f :: rest, h, _, n, ts, hn => by
      simp only [Expr.itemTokens, group, List.length_append, List.length_cons] at hn
      obtain ⟨m, rfl⟩ : ∃ m, n = m + 1 := ⟨n - 1, by omega⟩
      rw [List.forall_mem_cons] at h
      have hrest : parseItems [] m (ahead (Expr.itemTokens style (f :: rest) ++
          .mark .rightBracket :: ts)) = _ :=
        parseItems_ahead (f :: rest) h.2 (List.cons_ne_nil f rest) (by omega)
      have hitem := h.1.group (show _ ≤ m by omega)
        (show (ahead (.mark .comma :: (Expr.itemTokens style (f :: rest) ++
          .mark .rightBracket :: ts))).token.closes from rfl)
      rw [Expr.itemTokens, List.append_assoc, List.cons_append, parseItems, run_bind_of_ok hitem,
        run_peek_bind, if_neg (by simp), run_expectMark_ahead, run_bind_of_ok hrest]
      rfl

theorem parseEntries_ahead : ∀ (entries : List (String × Expr)),
    (∀ e ∈ entries, ReadsBack style e.2) → entries ≠ [] → ∀ {n : Nat} {ts : List Token},
      8 * (Expr.entryTokens style entries).length ≤ n →
        parseEntries [] n (ahead (Expr.entryTokens style entries ++ .mark .rightBrace :: ts)) =
          .ok (Expr.writtenEntries entries, ahead (.mark .rightBrace :: ts))
  | [(key, e)], h, _, n, ts, hn => by
      simp only [Expr.entryTokens, group, List.length_append, List.length_cons] at hn
      obtain ⟨m, rfl⟩ : ∃ m, n = m + 1 := ⟨n - 1, by omega⟩
      have he : ReadsBack style e := h (key, e) List.mem_cons_self
      have hvalue := he.group (show _ ≤ m by omega)
        (show (ahead (.mark .rightBrace :: ts)).token.closes from rfl)
      rw [Expr.entryTokens, List.cons_append, List.cons_append, parseEntries,
        run_expectString_ahead, run_expectMark_ahead, run_bind_of_ok hvalue]
      rfl
  | (key, e) :: f :: rest, h, _, n, ts, hn => by
      simp only [Expr.entryTokens, group, List.length_append, List.length_cons] at hn
      obtain ⟨m, rfl⟩ : ∃ m, n = m + 1 := ⟨n - 1, by omega⟩
      rw [List.forall_mem_cons] at h
      have hrest : parseEntries [] m (ahead (Expr.entryTokens style (f :: rest) ++
          .mark .rightBrace :: ts)) = _ :=
        parseEntries_ahead (f :: rest) h.2 (List.cons_ne_nil f rest) (by omega)
      have he : ReadsBack style e := h.1
      have hvalue := he.group (show _ ≤ m by omega)
        (show (ahead (.mark .comma :: (Expr.entryTokens style (f :: rest) ++
          .mark .rightBrace :: ts))).token.closes from rfl)
      rw [Expr.entryTokens, List.cons_append, List.cons_append, List.append_assoc,
        List.cons_append, parseEntries, run_expectString_ahead, run_expectMark_ahead,
        run_bind_of_ok hvalue, run_peek_bind, if_neg (by simp), run_expectMark_ahead,
        run_bind_of_ok hrest]
      rfl

theorem parseArgs_ahead {args : List Expr} (h : ∀ e ∈ args, ReadsBack style e)
    (hn : 8 * (Expr.itemTokens style args).length + 1 ≤ n) :
    parseArgs [] (n + 1) (ahead (group (Expr.itemTokens style args) ++ ts)) =
      .ok (Expr.writtenItems args, ahead ts) := by
  rw [group, List.cons_append, List.append_assoc, List.cons_append, List.nil_append, parseArgs,
    run_expectMark_ahead, run_bind_of_ok (parseArgsRest_ahead args h hn), run_expectMark_ahead]
  rfl

theorem readsBack_call {args : List Expr} (span : Span) (name : String)
    (h : ∀ e ∈ args, ReadsBack style e) : ReadsBack style (.call span name args) := by
  intro n ts hn hts
  simp only [Expr.tokens, group, List.length_append, List.length_cons, List.length_nil] at hn
  obtain ⟨m, rfl⟩ : ∃ m, n = m + 5 := ⟨n - 5, by omega⟩
  have hargs : parseArgs [] (m + 2) (ahead (Style.group (Expr.itemTokens style args) ++ ts)) = _ :=
    parseArgs_ahead h (by omega)
  have hcall : parsePostfix [] (m + 3) (ahead ((Expr.call span name args).tokens style ++ ts)) =
      .ok ((Expr.call span name args).written, ahead ts) := by
    rw [Expr.tokens, List.cons_append, parsePostfix,
      run_bind_of_ok (parsePrimary_name style name _), run_peek_bind]
    dsimp only
    rw [if_pos (by simp [group]), run_bind_of_ok hargs, run_lastEnd_bind,
      parseIndices_closed hts, Expr.written]
    rfl
  exact parseExpr_closed hts hcall

theorem parsePrimary_action (ref : ActionRef) (ts : List Token) :
    parsePrimary [] (n + 1) (ahead (ref.tokens ++ ts)) = .ok (.action ref .nowhere, ahead ts) := by
  have hrun : (do
      let ref ← parseActionRef
      return Operand.action ref ⟨0, ← lastEnd⟩ : Parse Operand) (ahead (ref.tokens ++ ts)) =
        .ok (.action ref .nowhere, ahead ts) := by
    simp
  rw [← hrun, parsePrimary, run_get_bind]
  obtain ⟨action, category, _ | target⟩ := ref
  · simp [ActionRef.tokens]
  · simp [ActionRef.tokens, parseTargeted]

theorem readsBack_action {args : List Expr} (span : Span) (ref : ActionRef)
    (h : ∀ e ∈ args, ReadsBack style e) : ReadsBack style (.action span ref args) := by
  intro n ts hn hts
  simp only [Expr.tokens, group, List.length_append, List.length_cons, List.length_nil] at hn
  obtain ⟨m, rfl⟩ : ∃ m, n = m + 5 := ⟨n - 5, by omega⟩
  have hargs : parseArgs [] (m + 2) (ahead (Style.group (Expr.itemTokens style args) ++ ts)) = _ :=
    parseArgs_ahead h (by omega)
  have hcall : parsePostfix [] (m + 3) (ahead ((Expr.action span ref args).tokens style ++ ts)) =
      .ok ((Expr.action span ref args).written, ahead ts) := by
    rw [Expr.tokens, List.append_assoc, parsePostfix,
      run_bind_of_ok (parsePrimary_action ref _), run_peek_bind]
    dsimp only
    rw [if_pos (by simp [group]), run_bind_of_ok hargs, run_lastEnd_bind,
      parseIndices_closed hts, Expr.written]
    rfl
  exact parseExpr_closed hts hcall

theorem readsBack_cast {value : Expr} (span : Span) (type : ValueType)
    (h : ReadsBack style value) : ReadsBack style (.cast span type value) := by
  intro n ts hn hts
  simp only [Expr.tokens, group, List.length_append, List.length_cons, List.length_nil] at hn
  obtain ⟨m, rfl⟩ : ∃ m, n = m + 7 := ⟨n - 7, by omega⟩
  have htype : parseType (m + 3) (ahead (type.tokens ++ .mark .rightParen ::
      (Style.group (value.tokens style) ++ ts))) = _ :=
    parseType_ahead type (by omega) (by simp)
  obtain ⟨base, hbase⟩ : ∃ base, (ahead (type.tokens ++ .mark .rightParen ::
      (Style.group (value.tokens style) ++ ts))).token = .type base := by
    cases type <;> exact ⟨_, rfl⟩
  refine parseExpr_closed hts (parsePostfix_closed hts ?_)
  rw [Expr.tokens, Expr.written, List.append_assoc, group, List.cons_append, List.append_assoc,
    List.cons_append, List.nil_append, parsePrimary, run_get_bind]
  simp only [Cursor.token_ahead, run_advance_bind, Cursor.advance_ahead, run_peek_bind, hbase]
  rw [run_bind_of_ok htype, run_expectMark_ahead, run_bind_of_ok (h.binary (by omega) hts 0),
    span_written, Cursor.span_ahead]
  rfl

theorem readsBack_dict {entries : List (String × Expr)} (span : Span)
    (h : ∀ e ∈ entries, ReadsBack style e.2) : ReadsBack style (.dict span entries) := by
  refine readsBack_of_primary fun n ts hn => ?_
  simp only [Expr.tokens, List.length_append, List.length_cons, List.length_nil] at hn
  rw [Expr.tokens, Expr.written, List.cons_append, List.append_assoc, List.cons_append,
    List.nil_append, parsePrimary, run_get_bind]
  simp only [Cursor.token_ahead, run_advance_bind, Cursor.advance_ahead, run_peek_bind]
  cases entries with
  | nil => simp [Expr.entryTokens, Expr.writtenEntries]
  | cons entry rest =>
      obtain ⟨key, e⟩ := entry
      have hsome : (ahead (Expr.entryTokens style ((key, e) :: rest) ++
          .mark .rightBrace :: ts)).token ≠ .mark .rightBrace := by
        cases rest <;> simp [Expr.entryTokens]
      have hentries : parseEntries [] n (ahead (Expr.entryTokens style ((key, e) :: rest) ++
          .mark .rightBrace :: ts)) = _ :=
        parseEntries_ahead _ h (List.cons_ne_nil _ rest) (by omega)
      rw [if_neg hsome, run_bind_of_ok hentries]
      simp

theorem readsBack_list {items : List Expr} (span : Span) (h : ∀ e ∈ items, ReadsBack style e) :
    ReadsBack style (.list span items) := by
  refine readsBack_of_primary fun n ts hn => ?_
  simp only [Expr.tokens, List.length_append, List.length_cons, List.length_nil] at hn
  rw [Expr.tokens, Expr.written, List.cons_append, List.append_assoc, List.cons_append,
    List.nil_append, parsePrimary, run_get_bind]
  simp only [Cursor.token_ahead, run_advance_bind, Cursor.advance_ahead, run_peek_bind]
  cases items with
  | nil => simp [Expr.itemTokens, Expr.writtenItems]
  | cons e rest =>
      have hsome : (ahead (Expr.itemTokens style (e :: rest) ++
          .mark .rightBracket :: ts)).token ≠ .mark .rightBracket := by
        cases rest <;> simp [Expr.itemTokens, group]
      have hitems : parseItems [] n (ahead (Expr.itemTokens style (e :: rest) ++
          .mark .rightBracket :: ts)) = _ :=
        parseItems_ahead _ h (List.cons_ne_nil _ rest) (by omega)
      rw [if_neg hsome, run_bind_of_ok hitems]
      simp

mutual

theorem readsBack (style : Style) : ∀ e : Expr, ReadsBack style e
  | .number span x => readsBack_number span x
  | .str span s => readsBack_str span s
  | .styledText span s => readsBack_styledText span s
  | .vector span x y z => readsBack_vector span x y z
  | .variable span name => readsBack_variable span name
  | .dict span entries => readsBack_dict span (readsBack_entries style entries)
  | .list span items => readsBack_list span (readsBack_items style items)
  | .binary span op opSpan left right =>
      readsBack_binary span opSpan op (readsBack style left) (readsBack style right)
  | .index span object key => readsBack_index span (readsBack style object) (readsBack style key)
  | .setIndex span object key value =>
      readsBack_setIndex span (readsBack style object) (readsBack style key) (readsBack style value)
  | .assign span name value => readsBack_assign span name (readsBack style value)
  | .call span name args => readsBack_call span name (readsBack_items style args)
  | .action span ref args => readsBack_action span ref (readsBack_items style args)
  | .cast span type value => readsBack_cast span type (readsBack style value)

theorem readsBack_items (style : Style) : ∀ items : List Expr, ∀ e ∈ items, ReadsBack style e
  | [] => List.forall_mem_nil _
  | e :: rest => List.forall_mem_cons.mpr ⟨readsBack style e, readsBack_items style rest⟩

theorem readsBack_entries (style : Style) :
    ∀ entries : List (String × Expr), ∀ e ∈ entries, ReadsBack style e.2
  | [] => List.forall_mem_nil _
  | (_, e) :: rest => List.forall_mem_cons.mpr ⟨readsBack style e, readsBack_entries style rest⟩

end

end

end Parser
end DiamondScript
