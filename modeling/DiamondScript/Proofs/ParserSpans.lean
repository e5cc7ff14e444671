import DiamondScript.Proofs.Coverage
import DiamondScript.Proofs.Placed
import DiamondScript.Proofs.Sentence

namespace DiamondScript

theorem Span.Within.of_ends {source : String} {start stop : Nat} (hle : start ≤ stop)
    (hstart : String.Pos.Raw.IsValid source ⟨start⟩)
    (hstop : String.Pos.Raw.IsValid source ⟨stop⟩) : Span.Within source ⟨start, stop⟩ :=
  ⟨hle, hstop.le_utf8ByteSize, hstart, hstop⟩

theorem Span.Within.merge {source : String} {a b : Span} (ha : a.Within source)
    (hb : b.Within source) : (a.merge b).Within source := by
  have hmin : String.Pos.Raw.IsValid source ⟨min a.start b.start⟩ := by
    rcases Nat.le_total a.start b.start with h | h
    · rw [Nat.min_eq_left h]
      exact ha.starts
    · rw [Nat.min_eq_right h]
      exact hb.starts
  have hmax : String.Pos.Raw.IsValid source ⟨max a.stop b.stop⟩ := by
    rcases Nat.le_total a.stop b.stop with h | h
    · rw [Nat.max_eq_right h]
      exact hb.stops
    · rw [Nat.max_eq_left h]
      exact ha.stops
  have := ha.ordered
  exact .of_ends (by omega) hmin hmax

def Constants.Placed (P : Span → Prop) (constants : Constants) : Prop :=
  ∀ name e, (name, Constant.expr e) ∈ constants → e.Placed P

/-- The tokens that are left lie in the source one after the other, behind the end of the last
one read. -/
structure Cursor.Sound (source : String) (c : Cursor) : Prop where
  closed : c.Closed
  within : ∀ l ∈ c.rest, l.span.Within source
  ordered : c.rest.Pairwise fun l l' => l.span.stop ≤ l'.span.start
  last : String.Pos.Raw.IsValid source ⟨c.lastEnd⟩
  behind : ∀ l ∈ c.rest, c.lastEnd ≤ l.span.start

/-- A sound cursor whose next token starts at the offset or behind it. -/
structure Cursor.From (source : String) (k : Nat) (c : Cursor) : Prop where
  sound : c.Sound source
  ahead : k ≤ c.span.start

/-- A sound cursor that has read up to the offset or beyond. -/
structure Cursor.Past (source : String) (k : Nat) (c : Cursor) : Prop where
  sound : c.Sound source
  reached : k ≤ c.lastEnd

structure Span.Covered (source : String) (k : Nat) (span : Span) (c : Cursor) : Prop where
  within : span.Within source
  after : k ≤ span.start
  before : span.stop ≤ c.lastEnd
  sound : c.Sound source

section

variable {source : String} {k : Nat} {c d : Cursor}

namespace Cursor

theorem Closed.rest_eq (h : c.Closed) : ∃ l rest, c.rest = l :: rest := by
  obtain ⟨lastEnd, _ | ⟨l, rest⟩⟩ := c
  · cases h
  · exact ⟨l, rest, rfl⟩

theorem Sound.span (h : c.Sound source) : c.span.Within source := by
  obtain ⟨lastEnd, rest⟩ := c
  obtain ⟨l, rest, rfl⟩ := h.closed.rest_eq
  exact h.within l List.mem_cons_self

theorem Sound.lastEnd_le (h : c.Sound source) : c.lastEnd ≤ c.span.start := by
  obtain ⟨lastEnd, rest⟩ := c
  obtain ⟨l, rest, rfl⟩ := h.closed.rest_eq
  exact h.behind l List.mem_cons_self

theorem Sound.advance (h : c.Sound source) : c.advance.Sound source := by
  obtain ⟨lastEnd, _ | ⟨l, _ | ⟨next, rest⟩⟩⟩ := c
  · exact h
  · exact h
  · obtain ⟨hl, hwithin⟩ := List.forall_mem_cons.mp h.within
    obtain ⟨hbehind, hordered⟩ := List.pairwise_cons.mp h.ordered
    refine ⟨?_, hwithin, hordered, hl.stops, hbehind⟩
    have hclosed := h.closed
    rwa [Closed, tokens, List.map_cons, List.map_cons, List.getLast?_cons_cons] at hclosed

theorem Sound.here (h : c.Sound source) : c.From source c.span.start := ⟨h, Nat.le_refl _⟩

theorem Sound.atEnd (h : c.Sound source) : c.Past source c.lastEnd := ⟨h, Nat.le_refl _⟩

theorem Past.next (h : c.Past source k) : c.From source k :=
  ⟨h.sound, h.reached.trans h.sound.lastEnd_le⟩

theorem From.advance (h : c.From source k) (hne : c.token ≠ .eof) : c.advance.Past source k := by
  refine ⟨h.sound.advance, ?_⟩
  rw [(h.sound.closed.advance_eq hne).1]
  exact h.ahead.trans h.sound.span.ordered

theorem From.covered (h : c.From source k) (hne : c.token ≠ .eof) :
    c.span.Covered source k c.advance :=
  ⟨h.sound.span, h.ahead, (h.sound.closed.advance_eq hne).1.ge, h.sound.advance⟩

end Cursor

namespace Span

variable {span : Span}

theorem Covered.past (h : span.Covered source k c) : c.Past source k :=
  ⟨h.sound, h.after.trans (h.within.ordered.trans h.before)⟩

theorem Covered.step (h : span.Covered source k c) (hd : d.Past source c.lastEnd) :
    span.Covered source k d :=
  ⟨h.within, h.after, h.before.trans hd.reached, hd.sound⟩

theorem Covered.upTo (h : span.Within source) (hk : k ≤ span.start)
    (hd : d.Past source span.start) : Covered source k ⟨span.start, d.lastEnd⟩ d :=
  ⟨.of_ends hd.reached h.starts hd.sound.last, hk, Nat.le_refl _, hd.sound⟩

theorem Covered.merge {a b : Span} (ha : a.Covered source k c)
    (hb : b.Covered source c.lastEnd d) : (a.merge b).Covered source k d := by
  have hk := ha.past.reached
  have hafter := hb.after
  have hordered := hb.within.ordered
  refine ⟨ha.within.merge hb.within, Nat.le_min.mpr ⟨ha.after, hk.trans hafter⟩, ?_, hb.sound⟩
  exact Nat.max_le.mpr ⟨ha.before.trans (hafter.trans (hordered.trans hb.before)), hb.before⟩

end Span

end

theorem Accounts.cursor_closed {source : String} {lexemes : List Lexeme}
    (h : Accounts source lexemes) (lastEnd : Nat) : Cursor.Closed ⟨lastEnd, lexemes⟩ := by
  obtain ⟨named, hlexemes, -⟩ := h.closed
  rw [Cursor.Closed, Cursor.tokens, hlexemes, List.map_append, List.map_singleton,
    List.getLast?_concat]

namespace Parser

variable {source : String}

/-- The parser goes on to a result as described or stops at a span of the source. -/
def Safe {α : Type} (source : String) (p : Parse α) (c : Cursor) (Q : α → Cursor → Prop) : Prop :=
  (∀ a d, p c = .ok (a, d) → Q a d) ∧ ∀ e, p c = .error e → e.span.Within source

section

variable {α β : Type} {p : Parse α} {f : α → Parse β} {c : Cursor} {Q : α → Cursor → Prop}
  {R : β → Cursor → Prop}

theorem Safe.bind (h : Safe source p c Q) (hf : ∀ a d, Q a d → Safe source (f a) d R) :
    Safe source (p >>= f) c R := by
  have hrun : (p >>= f) c = (p c >>= fun r => f r.1 r.2) := rfl
  rw [Safe, hrun]
  cases hp : p c with
  | error e =>
      refine ⟨nofun, ?_⟩
      rintro _ ⟨⟩
      exact h.2 e hp
  | ok r => exact hf r.1 r.2 (h.1 r.1 r.2 hp)

theorem safe_pure {a : α} (h : Q a c) : Safe source (pure a) c Q := by
  refine ⟨?_, nofun⟩
  rintro _ _ ⟨⟩
  exact h

theorem safe_failAt {fault : ParseFault} {span : Span} (h : span.Within source) :
    Safe source (failAt fault span) c Q := by
  refine ⟨nofun, ?_⟩
  rintro _ ⟨⟩
  exact h

theorem safe_get_bind {f : Cursor → Parse β} (h : Safe source (f c) c R) :
    Safe source (get >>= f) c R := h

theorem safe_peek_bind {f : Token → Parse β} (h : Safe source (f c.token) c R) :
    Safe source (peek >>= f) c R := h

theorem safe_spanHere_bind {f : Span → Parse β} (h : Safe source (f c.span) c R) :
    Safe source (spanHere >>= f) c R := h

theorem safe_lastEnd_bind {f : Nat → Parse β} (h : Safe source (f c.lastEnd) c R) :
    Safe source (lastEnd >>= f) c R := h

theorem safe_advance_bind {f : Unit → Parse β} (h : Safe source (f ()) c.advance R) :
    Safe source (advance >>= f) c R := h

theorem safe_failHere (hc : c.Sound source) {what : String} : Safe source (failHere what) c Q :=
  safe_get_bind (safe_failAt hc.span)

theorem safe_exhausted (hc : c.Sound source) : Safe source exhausted c Q :=
  safe_spanHere_bind (safe_failAt hc.span)

end

variable {k : Nat} {c : Cursor}

theorem safe_eat_bind {β : Type} {t : Token} {f : Bool → Parse β} {R : β → Cursor → Prop}
    (htrue : c.token = t → Safe source (f true) c.advance R) (hfalse : Safe source (f false) c R) :
    Safe source (eat t >>= f) c R := by
  rw [eat, bind_assoc]
  refine safe_peek_bind ?_
  split
  case isTrue htoken => exact htrue htoken
  case isFalse => exact hfalse

theorem safe_eat (h : c.From source k) (t : Token) (ht : t ≠ .eof) :
    Safe source (eat t) c fun _ d => d.From source k := by
  refine safe_peek_bind ?_
  split
  case isTrue htoken => exact safe_advance_bind (safe_pure (h.advance (htoken ▸ ht)).next)
  case isFalse => exact safe_pure h

theorem safe_eat_past (h : c.Past source k) (t : Token) (ht : t ≠ .eof) :
    Safe source (eat t) c fun _ d => d.Past source k := by
  refine safe_peek_bind ?_
  split
  case isTrue htoken => exact safe_advance_bind (safe_pure (h.next.advance (htoken ▸ ht)))
  case isFalse => exact safe_pure h

theorem safe_takeString (h : c.Past source k) :
    Safe source takeString c fun _ d => d.Past source k := by
  refine safe_peek_bind ?_
  cases htoken : c.token with
  | string s => exact safe_advance_bind (safe_pure (h.next.advance (by simp [htoken])))
  | _ => exact safe_pure h

section

variable (h : c.From source k)

include h

theorem safe_takeTarget : Safe source takeTarget c fun _ d => d.From source k := by
  refine safe_peek_bind ?_
  cases htoken : c.token with
  | target t => exact safe_advance_bind (safe_pure (h.advance (by simp [htoken])).next)
  | _ => exact safe_pure h

theorem safe_expect (t : Token) (ht : t ≠ .eof) (what : String) :
    Safe source (expect t what) c fun _ d => d.Past source k := by
  refine safe_get_bind ?_
  split
  case isTrue htoken => exact safe_advance_bind (safe_pure (h.advance (htoken ▸ ht)))
  case isFalse => exact safe_failHere h.sound

theorem safe_expectMark (m : Mark) (what : String) :
    Safe source (expectMark m what) c fun _ d => d.Past source k :=
  safe_expect h (.mark m) (by simp) what

theorem safe_expectKeyword (word : Keyword) (what : String) :
    Safe source (expect (.keyword word) what) c fun _ d => d.Past source k :=
  safe_expect h (.keyword word) (by simp) what

theorem safe_expectIdent (what : String) :
    Safe source (expectIdent what) c fun r d => r.2.Covered source k d := by
  refine safe_get_bind ?_
  cases htoken : c.token with
  | ident name => exact safe_advance_bind (safe_pure (h.covered (by simp [htoken])))
  | _ => exact safe_failHere h.sound

theorem safe_expectString (what : String) :
    Safe source (expectString what) c fun _ d => d.Past source k := by
  refine safe_peek_bind ?_
  cases htoken : c.token with
  | string s => exact safe_advance_bind (safe_pure (h.advance (by simp [htoken])))
  | _ => exact safe_failHere h.sound

theorem safe_expectVarName : Safe source expectVarName c fun _ d => d.Past source k := by
  refine safe_peek_bind ?_
  cases htoken : c.token with
  | ident | varName => exact safe_advance_bind (safe_pure (h.advance (by simp [htoken])))
  | _ => exact safe_failHere h.sound

theorem safe_expectSignedNumber (what : String) :
    Safe source (expectSignedNumber what) c fun _ d => d.Past source k := by
  refine (safe_eat h (.mark .minus) (by simp)).bind fun negative d hd => safe_peek_bind ?_
  cases htoken : d.token with
  | number x => exact safe_advance_bind (safe_pure (hd.advance (by simp [htoken])))
  | _ => exact safe_failHere hd.sound

theorem safe_parseActionRef : Safe source parseActionRef c fun _ d => d.Past source k := by
  refine (safe_takeTarget h).bind fun target c₁ h₁ => ?_
  refine (safe_expectKeyword h₁ _ _).bind fun _ c₂ h₂ => ?_
  refine (safe_expectString h₂.next _).bind fun action c₃ h₃ => ?_
  refine (safe_expectMark h₃.next _ _).bind fun _ c₄ h₄ => ?_
  refine (safe_expectString h₄.next _).bind fun category c₅ h₅ => ?_
  exact (safe_expectMark h₅.next _ _).bind fun _ c₆ h₆ => safe_pure h₆

end

mutual

theorem safe_parseType : ∀ (n : Nat) {c : Cursor}, c.From source k →
    Safe source (parseType n) c fun _ d => d.Past source k
  | 0, _, h => safe_exhausted h.sound
  | n + 1, c, h => by
      rw [parseType]
      refine safe_peek_bind ?_
      cases htoken : c.token with
      | type base =>
          have h₁ := h.advance (by simp [htoken])
          refine safe_advance_bind
            ((safe_eat_past h₁ (.mark .less) (by simp)).bind fun b c₂ h₂ => ?_)
          cases b with
          | false => exact safe_pure h₂
          | true =>
              refine (safe_parseTypeParams n h₂.next).bind fun params c₃ h₃ => ?_
              exact (safe_expectMark h₃.next _ _).bind fun _ c₄ h₄ => safe_pure h₄
      | _ => exact safe_failHere h.sound

theorem safe_parseTypeParams : ∀ (n : Nat) {c : Cursor}, c.From source k →
    Safe source (parseTypeParams n) c fun _ d => d.Past source k
  | 0, _, h => safe_exhausted h.sound
  | n + 1, c, h => by
      rw [parseTypeParams]
      refine (safe_parseType n h).bind fun type c₁ h₁ => ?_
      refine (safe_eat_past h₁ (.mark .comma) (by simp)).bind fun b c₂ h₂ => ?_
      cases b with
      | false => exact safe_pure h₂
      | true =>
          exact (safe_parseTypeParams n h₂.next).bind fun types c₃ h₃ => safe_pure h₃

end

/-- An expression of the source behind the offset, with all of it read. -/
structure Read (source : String) (k : Nat) (e : Expr) (c : Cursor) : Prop where
  placed : e.Placed (Span.Within source)
  covered : e.span.Covered source k c

def OperandRead (source : String) (k : Nat) : Operand → Cursor → Prop
  | .expr e, c => Read source k e c
  | .action _ span, c => span.Covered source k c

def ConstantRead (source : String) (k : Nat) (constant : Constant) (c : Cursor) : Prop :=
  (∀ e, constant = .expr e → e.Placed (Span.Within source)) ∧ c.Past source k

theorem safe_ending (h : c.From source k) {d : Cursor} (hd : d.Past source c.span.start)
    {f : Nat → Operand}
    (hf : Span.Covered source k ⟨c.span.start, d.lastEnd⟩ d →
      OperandRead source k (f d.lastEnd) d) :
    Safe source (do return f (← lastEnd)) d (OperandRead source k) :=
  safe_lastEnd_bind (safe_pure (hf (.upTo h.sound.span h.ahead hd)))

theorem safe_close (h : c.From source k) {d : Cursor} (hd : d.Past source c.span.start) (m : Mark)
    (what : String) {f : Nat → Operand}
    (hf : ∀ e : Cursor, Span.Covered source k ⟨c.span.start, e.lastEnd⟩ e →
      OperandRead source k (f e.lastEnd) e) :
    Safe source
      (do
        let _ ← expectMark m what
        return f (← lastEnd)) d (OperandRead source k) :=
  (safe_expectMark hd.next m what).bind fun _ e he => safe_ending h he (hf e)

theorem safe_parseVector (h : c.From source k) (htoken : c.token = .mark .less) :
    Safe source (parseVector c.span) c (OperandRead source k) := by
  have h₁ := h.sound.here.advance (by simp [htoken])
  refine safe_advance_bind ((safe_expectSignedNumber h₁.next _).bind fun x c₂ h₂ => ?_)
  refine (safe_expectMark h₂.next _ _).bind fun _ c₃ h₃ => ?_
  refine (safe_expectSignedNumber h₃.next _).bind fun y c₄ h₄ => ?_
  refine (safe_expectMark h₄.next _ _).bind fun _ c₅ h₅ => ?_
  refine (safe_expectSignedNumber h₅.next _).bind fun z c₆ h₆ => ?_
  exact safe_close h h₆ _ _ fun _ hspan => ⟨hspan.within, hspan⟩

theorem safe_parseTargeted (constants : Constants) (h : c.From source k) {target : Target}
    (htoken : c.token = .target target) :
    Safe source (parseTargeted constants c.span target) c (OperandRead source k) := by
  have hne : c.token ≠ .eof := by simp [htoken]
  have h₁ := h.sound.here.advance hne
  have hfail : Safe source
      (do
        advance
        failHere "codeblock after target") c (OperandRead source k) :=
    safe_advance_bind (safe_failHere h₁.sound)
  refine safe_get_bind ?_
  cases hnext : c.following with
  | keyword word =>
      cases word with
      | codeblock =>
          exact (safe_parseActionRef h.sound.here).bind fun ref d hd => safe_ending h hd id
      | _ => exact hfail
  | ident name | varName name =>
      dsimp only
      split
      · have h₂ := h₁.next.advance (by simp [(h.sound.closed.advance_eq hne).2, hnext])
        exact safe_advance_bind (safe_advance_bind (safe_ending h h₂ id))
      · exact hfail
  | _ => exact hfail

theorem read_of_lookup {constants : Constants} {name : String} {e : Expr}
    (hconstants : constants.Placed (Span.Within source))
    (hlookup : constants.lookup name = some (.expr e)) {span : Span}
    (h : span.Covered source k c) : Read source k (e.moveTo span) c := by
  obtain ⟨before, after, rfl, -⟩ := List.lookup_eq_some_iff.mp hlookup
  have hplaced := hconstants name e (by simp)
  refine ⟨hplaced.moveTo h.within, ?_⟩
  cases e <;> exact h

theorem operandRead_substitute {constants : Constants}
    (hconstants : constants.Placed (Span.Within source)) (name : String) {span : Span}
    (h : span.Covered source k c) :
    OperandRead source k
      ((substitute constants name none span).getD (.expr (.variable span name))) c := by
  rw [substitute]
  split
  case h_1 e hlookup => exact read_of_lookup hconstants hlookup h
  case h_2 ref _ => exact h
  case h_3 => exact ⟨h.within, h⟩

theorem safe_assignTo {left value : Expr} {equals : Span} {d : Cursor}
    (hleft : Read source k left c) (hvalue : Read source c.lastEnd value d)
    (hequals : equals.Within source) :
    Safe source (assignTo left value equals) d (Read source k) := by
  have hspan := hleft.covered.merge hvalue.covered
  cases left with
  | «variable» span name => exact safe_pure ⟨⟨hspan.within, hvalue.placed⟩, hspan⟩
  | index span object key =>
      obtain ⟨-, hobject, hkey⟩ := hleft.placed
      exact safe_pure ⟨⟨hspan.within, hobject, hkey, hvalue.placed⟩, hspan⟩
  | _ => exact safe_failAt hequals

mutual

theorem safe_parseExpr {constants : Constants}
    (hconstants : constants.Placed (Span.Within source)) :
    ∀ (n : Nat) {k : Nat} {c : Cursor}, c.From source k →
    Safe source (parseExpr constants n) c (Read source k)
  | 0, _, _, h => safe_exhausted h.sound
  | n + 1, k, c, h => by
      rw [parseExpr]
      refine (safe_parseBinary hconstants n 0 h).bind fun left c₁ hleft => safe_get_bind ?_
      split
      case isTrue htoken =>
        have h₂ := hleft.covered.sound.atEnd.next.advance (by simp [htoken])
        refine safe_advance_bind
          ((safe_parseExpr hconstants n h₂.next).bind fun value c₃ hvalue => ?_)
        exact safe_assignTo hleft hvalue hleft.covered.sound.span
      case isFalse => exact safe_pure hleft

theorem safe_parseBinary {constants : Constants}
    (hconstants : constants.Placed (Span.Within source)) :
    ∀ (n least : Nat) {k : Nat} {c : Cursor}, c.From source k →
    Safe source (parseBinary constants least n) c (Read source k)
  | 0, _, _, _, h => safe_exhausted h.sound
  | n + 1, least, k, c, h => by
      rw [parseBinary]
      exact (safe_parsePostfix hconstants n h).bind fun left c₁ hleft =>
        safe_parseOperators hconstants n least hleft

theorem safe_parseOperators {constants : Constants}
    (hconstants : constants.Placed (Span.Within source)) :
    ∀ (n least : Nat) {left : Expr} {k : Nat} {c : Cursor},
    Read source k left c → Safe source (parseOperators constants least left n) c (Read source k)
  | 0, _, _, _, _, h => safe_exhausted h.covered.sound
  | n + 1, least, left, k, c, h => by
      rw [parseOperators]
      refine safe_get_bind ?_
      cases hop : binaryOp? c.token with
      | none => exact safe_pure h
      | some operator =>
          obtain ⟨op, strength, leftward⟩ := operator
          have hne : c.token ≠ .eof := by
            intro heof
            rw [heof] at hop
            cases hop
          have h₁ := h.covered.sound.atEnd.next.advance hne
          dsimp only
          split
          · exact safe_pure h
          · refine safe_advance_bind
              ((safe_parseBinary hconstants n _ h₁.next).bind fun right d hright => ?_)
            have hspan := h.covered.merge hright.covered
            refine safe_parseOperators hconstants n least ⟨?_, hspan⟩
            exact ⟨hspan.within, h.covered.sound.span, h.placed, hright.placed⟩

theorem safe_parsePostfix {constants : Constants}
    (hconstants : constants.Placed (Span.Within source)) :
    ∀ (n : Nat) {k : Nat} {c : Cursor}, c.From source k →
    Safe source (parsePostfix constants n) c (Read source k)
  | 0, _, _, h => safe_exhausted h.sound
  | n + 1, k, c, h => by
      rw [parsePostfix]
      refine (safe_parsePrimary hconstants n h).bind fun operand c₁ h₁ => safe_peek_bind ?_
      cases operand with
      | action ref span =>
          have hspan : c₁.Past source span.start :=
            ⟨h₁.sound, h₁.within.ordered.trans h₁.before⟩
          have htail {args : List Expr} {d : Cursor}
              (hargs : Expr.PlacedItems (Span.Within source) args) (hd : d.Past source span.start) :
              Safe source
                (do parseIndices constants (.action ⟨span.start, ← lastEnd⟩ ref args) n) d
                (Read source k) := by
            have hcovered := Span.Covered.upTo h₁.within h₁.after hd
            exact safe_lastEnd_bind
              (safe_parseIndices hconstants n ⟨⟨hcovered.within, hargs⟩, hcovered⟩)
          dsimp only
          split
          · exact (safe_parseArgs hconstants n hspan.next).bind fun args d hd => htail hd.1 hd.2
          · exact htail trivial hspan
      | expr e =>
          cases e with
          | «variable» span name =>
              have hspan : c₁.Past source span.start :=
                ⟨h₁.covered.sound, h₁.covered.within.ordered.trans h₁.covered.before⟩
              dsimp only
              split
              · refine (safe_parseArgs hconstants n hspan.next).bind fun args d hd =>
                  safe_lastEnd_bind ?_
                have hcovered := Span.Covered.upTo h₁.covered.within h₁.covered.after hd.2
                exact safe_parseIndices hconstants n ⟨⟨hcovered.within, hd.1⟩, hcovered⟩
              · exact safe_parseIndices hconstants n h₁
          | _ => exact safe_parseIndices hconstants n h₁

theorem safe_parseIndices {constants : Constants}
    (hconstants : constants.Placed (Span.Within source)) :
    ∀ (n : Nat) {object : Expr} {k : Nat} {c : Cursor},
    Read source k object c → Safe source (parseIndices constants object n) c (Read source k)
  | 0, _, _, _, h => safe_exhausted h.covered.sound
  | n + 1, object, k, c, h => by
      rw [parseIndices]
      have hobject : c.Past source object.span.start :=
        ⟨h.covered.sound, h.covered.within.ordered.trans h.covered.before⟩
      refine safe_eat_bind (fun htoken => ?_) (safe_eat_bind (fun htoken => ?_) (safe_pure h))
      · have h₁ := hobject.next.advance (by simp [htoken])
        refine (safe_parseExpr hconstants n h₁.next).bind fun key c₂ hkey => ?_
        refine (safe_expectMark hkey.covered.past.next _ _).bind fun _ c₃ h₃ => ?_
        have hcovered := Span.Covered.upTo h.covered.within h.covered.after h₃
        refine safe_lastEnd_bind (safe_parseIndices hconstants n ⟨?_, hcovered⟩)
        exact ⟨hcovered.within, h.placed, hkey.placed⟩
      · have h₁ := hobject.next.advance (by simp [htoken])
        refine (safe_expectIdent h₁.next _).bind fun r c₂ hkey => ?_
        have hwithin : Span.Within source ⟨object.span.start, r.2.stop⟩ :=
          .of_ends (hkey.after.trans hkey.within.ordered) h.covered.within.starts hkey.within.stops
        refine safe_parseIndices hconstants n ⟨⟨hwithin, h.placed, hkey.within⟩, ?_⟩
        exact ⟨hwithin, h.covered.after, hkey.before, hkey.sound⟩

theorem safe_parseArgs {constants : Constants}
    (hconstants : constants.Placed (Span.Within source)) :
    ∀ (n : Nat) {k : Nat} {c : Cursor}, c.From source k →
    Safe source (parseArgs constants n) c fun args d =>
      Expr.PlacedItems (Span.Within source) args ∧ d.Past source k
  | 0, _, _, h => safe_exhausted h.sound
  | n + 1, k, c, h => by
      rw [parseArgs]
      refine (safe_expectMark h _ _).bind fun _ c₁ h₁ => ?_
      refine (safe_parseArgsRest hconstants n h₁).bind fun args c₂ h₂ => ?_
      exact (safe_expectMark h₂.2.next _ _).bind fun _ c₃ h₃ => safe_pure ⟨h₂.1, h₃⟩

theorem safe_parseArgsRest {constants : Constants}
    (hconstants : constants.Placed (Span.Within source)) :
    ∀ (n : Nat) {k : Nat} {c : Cursor}, c.Past source k →
    Safe source (parseArgsRest constants n) c fun args d =>
      Expr.PlacedItems (Span.Within source) args ∧ d.Past source k
  | 0, _, _, h => safe_exhausted h.sound
  | n + 1, k, c, h => by
      rw [parseArgsRest]
      refine safe_peek_bind ?_
      split
      · exact safe_pure ⟨trivial, h⟩
      · refine (safe_parseExpr hconstants n h.next).bind fun arg c₁ harg => safe_peek_bind ?_
        split
        · exact safe_pure ⟨⟨harg.placed, trivial⟩, harg.covered.past⟩
        · refine (safe_expectMark harg.covered.past.next _ _).bind fun _ c₂ h₂ => ?_
          refine (safe_parseArgsRest hconstants n h₂).bind fun args c₃ h₃ => ?_
          exact safe_pure ⟨⟨harg.placed, h₃.1⟩, h₃.2⟩

theorem safe_parsePrimary {constants : Constants}
    (hconstants : constants.Placed (Span.Within source)) :
    ∀ (n : Nat) {k : Nat} {c : Cursor}, c.From source k →
    Safe source (parsePrimary constants n) c (OperandRead source k)
  | 0, _, _, h => safe_exhausted h.sound
  | n + 1, k, c, h => by
      rw [parsePrimary]
      refine safe_get_bind ?_
      have hnumber : Safe source
          (do
            let x ← expectSignedNumber "expression"
            return .expr (.number ⟨c.span.start, ← lastEnd⟩ x)) c (OperandRead source k) :=
        (safe_expectSignedNumber h.sound.here _).bind fun x d hd =>
          safe_ending h hd fun hspan => ⟨hspan.within, hspan⟩
      cases htoken : c.token with
      | target t => exact safe_parseTargeted constants h htoken
      | keyword word =>
          cases word with
          | codeblock =>
              exact (safe_parseActionRef h.sound.here).bind fun ref d hd => safe_ending h hd id
          | _ => exact safe_failHere h.sound
      | ident name | varName name =>
          have hname := h.covered (by simp [htoken])
          exact safe_advance_bind (safe_pure (operandRead_substitute hconstants name hname))
      | number x => exact hnumber
      | string s | styledText s =>
          have htext := h.covered (by simp [htoken])
          exact safe_advance_bind (safe_pure ⟨htext.within, htext⟩)
      | mark m =>
          have hne : c.token ≠ .eof := by simp [htoken]
          have h₁ := h.sound.here.advance hne
          cases m with
          | minus => exact hnumber
          | less => exact safe_parseVector h htoken
          | leftParen =>
              have hgroup : Safe source
                  (do
                    let inner ← parseExpr constants n
                    let _ ← expectMark .rightParen "')' after expression"
                    return .expr inner) c.advance (OperandRead source k) := by
                refine (safe_parseExpr hconstants n (h.advance hne).next).bind fun e c₂ he => ?_
                refine (safe_expectMark he.covered.sound.atEnd.next _ _).bind fun _ c₃ h₃ => ?_
                exact safe_pure ⟨he.placed, he.covered.step h₃⟩
              refine safe_advance_bind (safe_peek_bind ?_)
              cases c.advance.token with
              | type base =>
                  refine (safe_parseType n h₁.next).bind fun type c₂ h₂ => ?_
                  refine (safe_expectMark h₂.next _ _).bind fun _ c₃ h₃ => ?_
                  refine (safe_parseBinary hconstants n 0 h₃.next).bind fun e c₄ he => ?_
                  have hwithin : Span.Within source ⟨c.span.start, e.span.stop⟩ :=
                    .of_ends (he.covered.after.trans he.covered.within.ordered)
                      h.sound.span.starts he.covered.within.stops
                  refine safe_pure ⟨⟨hwithin, he.placed⟩, ?_⟩
                  exact ⟨hwithin, h.ahead, he.covered.before, he.covered.sound⟩
              | _ => exact hgroup
          | leftBrace =>
              refine safe_advance_bind (safe_peek_bind ?_)
              split
              · exact safe_close h h₁ _ _ fun _ hspan => ⟨⟨hspan.within, trivial⟩, hspan⟩
              · exact (safe_parseEntries hconstants n h₁.next).bind fun entries _ hd =>
                  safe_close h hd.2 _ _ fun _ hspan => ⟨⟨hspan.within, hd.1⟩, hspan⟩
          | leftBracket =>
              refine safe_advance_bind (safe_peek_bind ?_)
              split
              · exact safe_close h h₁ _ _ fun _ hspan => ⟨⟨hspan.within, trivial⟩, hspan⟩
              · exact (safe_parseItems hconstants n h₁.next).bind fun items _ hd =>
                  safe_close h hd.2 _ _ fun _ hspan => ⟨⟨hspan.within, hd.1⟩, hspan⟩
          | _ => exact safe_failHere h.sound
      | _ => exact safe_failHere h.sound

theorem safe_parseEntries {constants : Constants}
    (hconstants : constants.Placed (Span.Within source)) :
    ∀ (n : Nat) {k : Nat} {c : Cursor}, c.From source k →
    Safe source (parseEntries constants n) c fun entries d =>
      Expr.PlacedEntries (Span.Within source) entries ∧ d.Past source k
  | 0, _, _, h => safe_exhausted h.sound
  | n + 1, k, c, h => by
      rw [parseEntries]
      refine (safe_expectString h _).bind fun key c₁ h₁ => ?_
      refine (safe_expectMark h₁.next _ _).bind fun _ c₂ h₂ => ?_
      refine (safe_parseExpr hconstants n h₂.next).bind fun value c₃ hvalue => safe_peek_bind ?_
      split
      · exact safe_pure ⟨⟨hvalue.placed, trivial⟩, hvalue.covered.past⟩
      · refine (safe_expectMark hvalue.covered.past.next _ _).bind fun _ c₄ h₄ => ?_
        refine (safe_parseEntries hconstants n h₄.next).bind fun entries c₅ h₅ => ?_
        exact safe_pure ⟨⟨hvalue.placed, h₅.1⟩, h₅.2⟩

theorem safe_parseItems {constants : Constants}
    (hconstants : constants.Placed (Span.Within source)) :
    ∀ (n : Nat) {k : Nat} {c : Cursor}, c.From source k →
    Safe source (parseItems constants n) c fun items d =>
      Expr.PlacedItems (Span.Within source) items ∧ d.Past source k
  | 0, _, _, h => safe_exhausted h.sound
  | n + 1, k, c, h => by
      rw [parseItems]
      refine (safe_parseExpr hconstants n h).bind fun item c₁ hitem => safe_peek_bind ?_
      split
      · exact safe_pure ⟨⟨hitem.placed, trivial⟩, hitem.covered.past⟩
      · refine (safe_expectMark hitem.covered.past.next _ _).bind fun _ c₂ h₂ => ?_
        refine (safe_parseItems hconstants n h₂.next).bind fun items c₃ h₃ => ?_
        exact safe_pure ⟨⟨hitem.placed, h₃.1⟩, h₃.2⟩

end

section

variable {constants : Constants} (hconstants : constants.Placed (Span.Within source))

include hconstants

theorem safe_parseInitial (h : c.Past source k) (allowed : Bool) (n : Nat) :
    Safe source (parseInitial constants allowed n) c fun value d =>
      (∀ e ∈ value, e.Placed (Span.Within source)) ∧ d.Past source k := by
  have hnone : Safe source (pure none : Parse (Option Expr)) c fun value d =>
      (∀ e ∈ value, e.Placed (Span.Within source)) ∧ d.Past source k :=
    safe_pure ⟨by simp, h⟩
  rw [parseInitial]
  split
  · refine safe_eat_bind (fun htoken => ?_) hnone
    have h₁ := h.next.advance (by simp [htoken])
    refine (safe_parseExpr hconstants n h₁.next).bind fun value c₂ hvalue => ?_
    exact safe_pure ⟨fun e he => Option.some.inj he ▸ hvalue.placed, hvalue.covered.past⟩
  · exact hnone

theorem safe_parseVarDef (h : c.From source k) (withValue : Bool) (n : Nat) :
    Safe source (parseVarDef constants withValue n) c fun d e =>
      (Stmt.var d).Placed (Span.Within source) ∧ e.Past source k := by
  rw [parseVarDef]
  refine safe_spanHere_bind (safe_peek_bind ?_)
  cases hstorage : storageOf? c.token with
  | none => exact safe_failHere h.sound
  | some storage =>
      have hne : c.token ≠ .eof := by
        intro heof
        rw [heof] at hstorage
        cases hstorage
      have h₁ := h.sound.here.advance hne
      refine safe_advance_bind ((safe_expectVarName h₁.next).bind fun name c₂ h₂ => ?_)
      refine (safe_expectMark h₂.next _ _).bind fun _ c₃ h₃ => ?_
      refine (safe_parseType n h₃.next).bind fun type c₄ h₄ => ?_
      refine (safe_parseInitial hconstants h₄ withValue n).bind fun value c₅ h₅ => ?_
      refine (safe_expectMark h₅.2.next _ _).bind fun _ c₆ h₆ => safe_lastEnd_bind (safe_pure ?_)
      have hcovered := Span.Covered.upTo h.sound.span h.ahead h₆
      exact ⟨⟨hcovered.within, h₅.1⟩, hcovered.past⟩

theorem safe_parseConstantValue (h : c.From source k) (n : Nat) :
    Safe source (parseConstantValue constants n) c (ConstantRead source k) := by
  have haction : Safe source
      (do
        let ref ← parseActionRef
        if (← peek) = .mark .leftParen then
          let args ← parseArgs constants n
          return .expr (.action ⟨c.span.start, ← lastEnd⟩ ref args)
        else return .action ref) c (ConstantRead source k) := by
    refine (safe_parseActionRef h.sound.here).bind fun ref c₁ h₁ => safe_peek_bind ?_
    split
    · refine (safe_parseArgs hconstants n h₁.next).bind fun args c₂ h₂ => safe_lastEnd_bind ?_
      have hcovered := Span.Covered.upTo h.sound.span h.ahead h₂.2
      refine safe_pure ⟨?_, hcovered.past⟩
      rintro _ ⟨⟩
      exact ⟨hcovered.within, h₂.1⟩
    · exact safe_pure ⟨by simp, (Span.Covered.upTo h.sound.span h.ahead h₁).past⟩
  have hexpr : Safe source (do return .expr (← parseExpr constants n)) c
      (ConstantRead source k) := by
    refine (safe_parseExpr hconstants n h).bind fun e c₁ he => safe_pure ⟨?_, he.covered.past⟩
    rintro _ ⟨⟩
    exact he.placed
  rw [parseConstantValue]
  refine safe_spanHere_bind (safe_peek_bind ?_)
  cases c.token with
  | target t => exact haction
  | keyword word =>
      cases word with
      | codeblock => exact haction
      | _ => exact hexpr
  | _ => exact hexpr

theorem safe_parseConst (h : c.From source k) (n : Nat) :
    Safe source (parseConst constants n) c fun constants d =>
      constants.Placed (Span.Within source) ∧ d.Past source k := by
  rw [parseConst]
  refine (safe_expectKeyword h _ _).bind fun _ c₁ h₁ => ?_
  refine (safe_expectIdent h₁.next _).bind fun r c₂ h₂ => ?_
  refine (safe_expectMark h₂.past.next _ _).bind fun _ c₃ h₃ => ?_
  refine (safe_parseConstantValue hconstants h₃.next n).bind fun constant c₄ h₄ => ?_
  refine (safe_expectMark h₄.2.next _ _).bind fun _ c₅ h₅ => safe_pure ⟨?_, h₅⟩
  intro name e hmem
  rcases List.mem_cons.mp hmem with heq | hmem
  · exact h₄.1 e (congrArg Prod.snd heq).symm
  · exact hconstants name e hmem

end

theorem safe_parseParam (h : c.Past source k) (n : Nat) :
    Safe source (parseParam n) c fun _ d => d.Past source k := by
  rw [parseParam]
  refine (safe_eat_past h (.keyword .out) (by simp)).bind fun output c₁ h₁ => ?_
  refine (safe_expectIdent h₁.next _).bind fun r c₂ h₂ => ?_
  refine (safe_expectMark h₂.past.next _ _).bind fun _ c₃ h₃ => ?_
  refine (safe_parseType n h₃.next).bind fun type c₄ h₄ => ?_
  refine (safe_eat_past h₄ (.mark .ellipsis) (by simp)).bind fun plural c₅ h₅ => ?_
  refine (safe_eat_past h₅ (.mark .question) (by simp)).bind fun optional c₆ h₆ => ?_
  exact (safe_takeString h₆).bind fun description c₇ h₇ => safe_pure h₇

theorem safe_parseParams (n : Nat) {c : Cursor} (h : c.Past source k) :
    Safe source (parseParams n) c fun _ d => d.Past source k := by
  induction n generalizing c with
  | zero => exact safe_exhausted h.sound
  | succ n ih =>
      rw [parseParams]
      refine safe_peek_bind ?_
      split
      · exact safe_pure h
      · refine (safe_parseParam h n).bind fun param c₁ h₁ => safe_peek_bind ?_
        split
        · exact safe_pure h₁
        · refine (safe_expectMark h₁.next _ _).bind fun _ c₂ h₂ => ?_
          exact (ih h₂).bind fun params c₃ h₃ => safe_pure h₃

section

variable {constants : Constants} (hconstants : constants.Placed (Span.Within source))

include hconstants

theorem safe_parseStmt (h : c.From source k) (n : Nat) :
    Safe source (parseStmt constants n) c fun stmt d =>
      stmt.Placed (Span.Within source) ∧ d.Past source k := by
  rw [parseStmt]
  refine safe_peek_bind ?_
  split
  · exact (safe_parseVarDef hconstants h true n).bind fun d c₁ h₁ => safe_pure h₁
  · refine safe_spanHere_bind ((safe_parseExpr hconstants n h).bind fun e c₁ he => ?_)
    split
    · refine (safe_expectMark he.covered.past.next _ _).bind fun _ c₂ h₂ => ?_
      exact safe_pure ⟨he.placed, h₂⟩
    · exact safe_failAt h.sound.span

theorem safe_parseBody (n : Nat) {c : Cursor} (h : c.Past source k) :
    Safe source (parseBody constants n) c fun body d =>
      (∀ stmt ∈ body, stmt.Placed (Span.Within source)) ∧ d.Past source k := by
  induction n generalizing c with
  | zero => exact safe_exhausted h.sound
  | succ n ih =>
      have hnext : Safe source
          (do
            let stmt ← parseStmt constants n
            let stmts ← parseBody constants n
            return stmt :: stmts) c fun body d =>
          (∀ stmt ∈ body, stmt.Placed (Span.Within source)) ∧ d.Past source k := by
        refine (safe_parseStmt hconstants h.next n).bind fun stmt c₁ h₁ => ?_
        refine (ih h₁.2).bind fun stmts c₂ h₂ => ?_
        exact safe_pure ⟨List.forall_mem_cons.mpr ⟨h₁.1, h₂.1⟩, h₂.2⟩
      rw [parseBody]
      refine safe_peek_bind ?_
      cases c.token with
      | mark m =>
          cases m with
          | rightBrace => exact safe_pure ⟨by simp, h⟩
          | _ => exact hnext
      | eof => exact safe_failHere h.sound
      | _ => exact hnext

theorem safe_parseFunc (h : c.From source k) (n : Nat) :
    Safe source (parseFunc constants n) c fun d e =>
      (Definition.func d).Placed (Span.Within source) ∧ e.Past source k := by
  rw [parseFunc]
  refine (safe_expectKeyword h _ _).bind fun _ c₁ h₁ => ?_
  refine (safe_expectIdent h₁.next _).bind fun r c₂ h₂ => ?_
  refine (safe_expectMark h₂.past.next _ _).bind fun _ c₃ h₃ => ?_
  refine (safe_parseParams n h₃).bind fun params c₄ h₄ => ?_
  refine (safe_expectMark h₄.next _ _).bind fun _ c₅ h₅ => ?_
  refine safe_eat_bind (fun htoken => ?_) ?_
  · exact safe_pure ⟨⟨h₂.within, by simp⟩, h₅.next.advance (by simp [htoken])⟩
  · refine (safe_expectMark h₅.next _ _).bind fun _ c₆ h₆ => ?_
    refine (safe_parseBody hconstants n h₆).bind fun body c₇ h₇ => ?_
    refine (safe_expectMark h₇.2.next _ _).bind fun _ c₈ h₈ => ?_
    exact safe_pure ⟨⟨h₂.within, fun b hb => Option.some.inj hb ▸ h₇.1⟩, h₈⟩

end

theorem safe_parseDefinitions (n : Nat) {constants : Constants}
    (hconstants : constants.Placed (Span.Within source)) {c : Cursor} (h : c.Past source k) :
    Safe source (parseDefinitions constants n) c fun definitions _ =>
      ∀ d ∈ definitions, d.Placed (Span.Within source) := by
  induction n generalizing constants c with
  | zero => exact safe_exhausted h.sound
  | succ n ih =>
      have hvar : Safe source
          (do
            let d ← parseVarDef constants false n
            return .var d :: (← parseDefinitions constants n)) c fun definitions _ =>
          ∀ d ∈ definitions, d.Placed (Span.Within source) := by
        refine (safe_parseVarDef hconstants h.next false n).bind fun d c₁ h₁ => ?_
        refine (ih hconstants h₁.2).bind fun definitions c₂ h₂ => ?_
        exact safe_pure (List.forall_mem_cons.mpr ⟨h₁.1.1, h₂⟩)
      rw [parseDefinitions]
      refine safe_peek_bind ?_
      cases c.token with
      | eof => exact safe_pure (by simp)
      | keyword word =>
          cases word with
          | game | save => exact hvar
          | func =>
              refine (safe_parseFunc hconstants h.next n).bind fun d c₁ h₁ => ?_
              refine (ih hconstants h₁.2).bind fun definitions c₂ h₂ => ?_
              exact safe_pure (List.forall_mem_cons.mpr ⟨h₁.1, h₂⟩)
          | const =>
              refine (safe_parseConst hconstants h.next n).bind fun constants c₁ h₁ => ?_
              exact ih h₁.1 h₁.2
          | _ => exact safe_failHere h.sound
      | _ => exact safe_failHere h.sound

end Parser

end DiamondScript
