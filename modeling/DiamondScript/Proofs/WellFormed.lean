import DiamondScript.Compile
import DiamondScript.Proofs.Placed
import DiamondScript.Proofs.Steps
import DiamondScript.Proofs.Typing

namespace DiamondScript

namespace Expr

mutual

def entryFree : Expr → Bool
  | .number .. | .str .. | .styledText .. | .vector .. | .variable .. => true
  | .dict _ entries => entryFreeEntries entries
  | .list _ items => entryFreeItems items
  | .binary _ _ _ left right => left.entryFree && right.entryFree
  | .index _ object key => object.entryFree && key.entryFree
  | .setIndex _ object key value => object.entryFree && (key.entryFree && value.entryFree)
  | .assign _ _ value => value.entryFree
  | .call _ _ args | .action _ _ args => entryFreeItems args
  | .cast _ type value => type.entryFree && value.entryFree

def entryFreeItems : List Expr → Bool
  | [] => true
  | e :: rest => e.entryFree && entryFreeItems rest

def entryFreeEntries : List (String × Expr) → Bool
  | [] => true
  | (_, e) :: rest => e.entryFree && entryFreeEntries rest

end

theorem entryFree_moveTo (span : Span) (e : Expr) : (e.moveTo span).entryFree = e.entryFree := by
  cases e <;> rfl

mutual

theorem placed_of_forall {P : Span → Prop} (hP : ∀ span, P span) : ∀ e : Expr, e.Placed P
  | .number span _ | .str span _ | .styledText span _ | .vector span _ _ _ | .variable span _ =>
      hP span
  | .dict span entries => ⟨hP span, placedEntries_of_forall hP entries⟩
  | .list span items => ⟨hP span, placedItems_of_forall hP items⟩
  | .binary span _ opSpan left right =>
      ⟨hP span, hP opSpan, placed_of_forall hP left, placed_of_forall hP right⟩
  | .index span object key => ⟨hP span, placed_of_forall hP object, placed_of_forall hP key⟩
  | .setIndex span object key value =>
      ⟨hP span, placed_of_forall hP object, placed_of_forall hP key, placed_of_forall hP value⟩
  | .assign span _ value | .cast span _ value => ⟨hP span, placed_of_forall hP value⟩
  | .call span _ args | .action span _ args => ⟨hP span, placedItems_of_forall hP args⟩

theorem placedItems_of_forall {P : Span → Prop} (hP : ∀ span, P span) :
    ∀ items : List Expr, PlacedItems P items
  | [] => trivial
  | e :: rest => ⟨placed_of_forall hP e, placedItems_of_forall hP rest⟩

theorem placedEntries_of_forall {P : Span → Prop} (hP : ∀ span, P span) :
    ∀ entries : List (String × Expr), PlacedEntries P entries
  | [] => trivial
  | (_, e) :: rest => ⟨placed_of_forall hP e, placedEntries_of_forall hP rest⟩

end

end Expr

theorem Definition.placed_of_forall {P : Span → Prop} (hP : ∀ span, P span) (d : Definition) :
    d.Placed P := by
  cases d with
  | var d => exact hP d.span
  | func d =>
      refine ⟨hP d.span, fun body _ stmt _ => ?_⟩
      cases stmt with
      | var d => exact ⟨hP d.span, fun e _ => e.placed_of_forall hP⟩
      | expr e => exact e.placed_of_forall hP

/-- A statement as it can stand in a source. -/
def Stmt.WellFormed : Stmt → Prop
  | .var d => d.storage ∈ [Storage.var, .local, .game, .save] ∧ d.type.entryFree ∧
    ∀ e ∈ d.value, e.entryFree
  | .expr e => e.isStatement ∧ e.entryFree

def Definition.WellFormed : Definition → Prop
  | .var d => d.storage ∈ [Storage.game, .save] ∧ d.value = none ∧ d.type.entryFree
  | .func d => (∀ p ∈ d.params, p.type.entryFree) ∧ ∀ body ∈ d.body, ∀ stmt ∈ body, stmt.WellFormed

def Constant.EntryFree : Constant → Prop
  | .expr e => e.entryFree
  | .action _ => True

def Constants.EntryFree (constants : Constants) : Prop := ∀ c ∈ constants, c.2.EntryFree

def Operand.EntryFree : Operand → Prop
  | .expr e => e.entryFree
  | .action .. => True

namespace Parser

section

variable {α β : Type} {p : Parse α} {f : α → Parse β} {c : Cursor} {Q : α → Prop} {R : β → Prop}

/-- If the parser reads something, it is as described. -/
def Gives (p : Parse α) (c : Cursor) (Q : α → Prop) : Prop := ∀ a d, p c = .ok (a, d) → Q a

theorem Gives.bind (h : Gives p c Q) (hf : ∀ a d, Q a → Gives (f a) d R) :
    Gives (p >>= f) c R := by
  intro b e hr
  obtain ⟨a, d, hp, hfa⟩ := run_bind_eq_ok.mp hr
  exact hf a d (h a d hp) b e hfa

theorem gives_bind (hf : ∀ a d, Gives (f a) d R) : Gives (p >>= f) c R :=
  Gives.bind (Q := fun _ => True) (fun _ _ _ => trivial) fun a d _ => hf a d

theorem gives_pure {a : α} (h : Q a) : Gives (pure a) c Q := by
  rintro _ _ ⟨⟩
  exact h

theorem gives_failAt (fault : ParseFault) (span : Span) : Gives (failAt fault span) c Q := nofun

theorem gives_failHere (what : String) : Gives (failHere what) c Q := nofun

theorem gives_exhausted : Gives exhausted c Q := nofun

theorem Gives.ite {b : Prop} [Decidable b] {q : Parse α} (hp : Gives p c Q) (hq : Gives q c Q) :
    Gives (if b then p else q) c Q := by
  split
  · exact hp
  · exact hq

theorem gives_get_bind {f : Cursor → Parse β} (h : Gives (f c) c R) : Gives (get >>= f) c R := h

theorem gives_peek_bind {f : Token → Parse β} (h : Gives (f c.token) c R) :
    Gives (peek >>= f) c R := h

theorem gives_spanHere_bind {f : Span → Parse β} (h : Gives (f c.span) c R) :
    Gives (spanHere >>= f) c R := h

end

mutual

theorem gives_parseType : ∀ (n : Nat) {c : Cursor},
    Gives (parseType n) c fun type => type.entryFree
  | 0, _ => gives_exhausted
  | n + 1, c => by
      rw [parseType]
      refine gives_peek_bind ?_
      cases c.token with
      | type base =>
          refine gives_bind fun _ _ => gives_bind fun b _ => .ite ?_ (gives_pure rfl)
          exact (gives_parseTypeParams n).bind fun params _ h => gives_bind fun _ _ => gives_pure h
      | _ => exact gives_failHere _

theorem gives_parseTypeParams : ∀ (n : Nat) {c : Cursor},
    Gives (parseTypeParams n) c fun types => ValueType.entryFreeAll types
  | 0, _ => gives_exhausted
  | n + 1, c => by
      rw [parseTypeParams]
      refine (gives_parseType n).bind fun type _ h => gives_bind fun b _ => .ite ?_ ?_
      · refine (gives_parseTypeParams n).bind fun types _ h' => gives_pure ?_
        exact Bool.and_eq_true_iff.mpr ⟨h, h'⟩
      · exact gives_pure (Bool.and_eq_true_iff.mpr ⟨h, rfl⟩)

end

variable {c : Cursor}

theorem gives_parseVector (start : Span) : Gives (parseVector start) c Operand.EntryFree := by
  rw [parseVector]
  exact gives_bind fun _ _ => gives_bind fun _ _ => gives_bind fun _ _ => gives_bind fun _ _ =>
    gives_bind fun _ _ => gives_bind fun _ _ => gives_bind fun _ _ => gives_bind fun _ _ =>
      gives_pure rfl

theorem gives_parseTargeted (constants : Constants) (start : Span) (target : Target) :
    Gives (parseTargeted constants start target) c Operand.EntryFree := by
  have hfail : Gives
      (do
        advance
        failHere "codeblock after target") c Operand.EntryFree :=
    gives_bind fun _ _ => gives_failHere _
  rw [parseTargeted]
  refine gives_get_bind ?_
  cases c.following with
  | keyword word =>
      cases word with
      | codeblock =>
          exact gives_bind fun _ _ => gives_bind fun _ _ => gives_pure trivial
      | _ => exact hfail
  | ident name | varName name =>
      dsimp only
      split
      · exact gives_bind fun _ _ => gives_bind fun _ _ => gives_bind fun _ _ => gives_pure trivial
      · exact hfail
  | _ => exact hfail

theorem gives_assignTo {left value : Expr} (hleft : left.entryFree) (hvalue : value.entryFree)
    (equals : Span) : Gives (assignTo left value equals) c fun e => e.entryFree := by
  cases left with
  | «variable» span name => exact gives_pure hvalue
  | index span object key =>
      rw [Expr.entryFree, Bool.and_eq_true] at hleft
      exact gives_pure (by simp [Expr.entryFree, hleft, hvalue])
  | _ => exact gives_failAt _ _

section

variable {constants : Constants} (hconstants : constants.EntryFree)

include hconstants

theorem entryFree_substitute (name : String) (target : Option Target) (span : Span) :
    ((substitute constants name target span).getD
      (.expr (.variable span name))).EntryFree := by
  rw [substitute]
  split
  case h_1 e hlookup =>
    obtain ⟨before, after, rfl, -⟩ := List.lookup_eq_some_iff.mp hlookup
    have h := hconstants (name, .expr e) (by simp)
    exact (e.entryFree_moveTo span).trans h
  case h_2 => exact trivial
  case h_3 => exact rfl

end

mutual

theorem gives_parseExpr {constants : Constants} (hconstants : constants.EntryFree) :
    ∀ (n : Nat) {c : Cursor}, Gives (parseExpr constants n) c fun e => e.entryFree
  | 0, _ => gives_exhausted
  | n + 1, c => by
      rw [parseExpr]
      refine (gives_parseBinary hconstants n 0).bind fun left _ hleft => gives_get_bind ?_
      refine .ite (gives_bind fun _ _ => ?_) (gives_pure hleft)
      exact (gives_parseExpr hconstants n).bind fun value _ hvalue => gives_assignTo hleft hvalue _

theorem gives_parseBinary {constants : Constants} (hconstants : constants.EntryFree) :
    ∀ (n least : Nat) {c : Cursor}, Gives (parseBinary constants least n) c fun e => e.entryFree
  | 0, _, _ => gives_exhausted
  | n + 1, least, c => by
      rw [parseBinary]
      exact (gives_parsePostfix hconstants n).bind fun left _ hleft =>
        gives_parseOperators hconstants n least hleft

theorem gives_parseOperators {constants : Constants} (hconstants : constants.EntryFree) :
    ∀ (n least : Nat) {left : Expr} {c : Cursor}, left.entryFree →
    Gives (parseOperators constants least left n) c fun e => e.entryFree
  | 0, _, _, _, _ => gives_exhausted
  | n + 1, least, left, c, hleft => by
      rw [parseOperators]
      refine gives_get_bind ?_
      cases binaryOp? c.token with
      | none => exact gives_pure hleft
      | some operator =>
          refine .ite (gives_pure hleft) (gives_bind fun _ _ => ?_)
          refine (gives_parseBinary hconstants n _).bind fun right _ hright => ?_
          exact gives_parseOperators hconstants n least (Bool.and_eq_true_iff.mpr ⟨hleft, hright⟩)

theorem gives_parsePostfix {constants : Constants} (hconstants : constants.EntryFree) :
    ∀ (n : Nat) {c : Cursor}, Gives (parsePostfix constants n) c fun e => e.entryFree
  | 0, _ => gives_exhausted
  | n + 1, c => by
      rw [parsePostfix]
      refine (gives_parsePrimary hconstants n).bind fun operand _ h => gives_bind fun _ _ => ?_
      cases operand with
      | action ref span =>
          have htail {args : List Expr} {d : Cursor} (hargs : Expr.entryFreeItems args) :
              Gives (do parseIndices constants (.action ⟨span.start, ← lastEnd⟩ ref args) n) d
                fun e => e.entryFree :=
            gives_bind fun _ _ => gives_parseIndices hconstants n hargs
          exact .ite ((gives_parseArgs hconstants n).bind fun args _ hargs => htail hargs)
            (htail rfl)
      | expr e =>
          cases e with
          | «variable» span name =>
              refine .ite ?_ (gives_parseIndices hconstants n h)
              exact (gives_parseArgs hconstants n).bind fun args _ hargs => gives_bind fun _ _ =>
                gives_parseIndices hconstants n hargs
          | _ => exact gives_parseIndices hconstants n h

theorem gives_parseIndices {constants : Constants} (hconstants : constants.EntryFree) :
    ∀ (n : Nat) {object : Expr} {c : Cursor}, object.entryFree →
    Gives (parseIndices constants object n) c fun e => e.entryFree
  | 0, _, _, _ => gives_exhausted
  | n + 1, object, c, h => by
      rw [parseIndices]
      refine gives_bind fun _ _ => .ite ?_ (gives_bind fun _ _ => .ite ?_ (gives_pure h))
      · refine (gives_parseExpr hconstants n).bind fun key _ hkey => ?_
        exact gives_bind fun _ _ => gives_bind fun _ _ =>
          gives_parseIndices hconstants n (Bool.and_eq_true_iff.mpr ⟨h, hkey⟩)
      · exact gives_bind fun _ _ =>
          gives_parseIndices hconstants n (Bool.and_eq_true_iff.mpr ⟨h, rfl⟩)

theorem gives_parseArgs {constants : Constants} (hconstants : constants.EntryFree) :
    ∀ (n : Nat) {c : Cursor}, Gives (parseArgs constants n) c fun args => Expr.entryFreeItems args
  | 0, _ => gives_exhausted
  | n + 1, c => by
      rw [parseArgs]
      exact gives_bind fun _ _ => (gives_parseArgsRest hconstants n).bind fun args _ h =>
        gives_bind fun _ _ => gives_pure h

theorem gives_parseArgsRest {constants : Constants} (hconstants : constants.EntryFree) :
    ∀ (n : Nat) {c : Cursor},
    Gives (parseArgsRest constants n) c fun args => Expr.entryFreeItems args
  | 0, _ => gives_exhausted
  | n + 1, c => by
      rw [parseArgsRest]
      refine gives_bind fun _ _ => .ite (gives_pure rfl) ?_
      refine (gives_parseExpr hconstants n).bind fun arg _ h => gives_bind fun _ _ => .ite ?_ ?_
      · exact gives_pure (Bool.and_eq_true_iff.mpr ⟨h, rfl⟩)
      · exact gives_bind fun _ _ => (gives_parseArgsRest hconstants n).bind fun args _ hargs =>
          gives_pure (Bool.and_eq_true_iff.mpr ⟨h, hargs⟩)

theorem gives_parsePrimary {constants : Constants} (hconstants : constants.EntryFree) :
    ∀ (n : Nat) {c : Cursor}, Gives (parsePrimary constants n) c Operand.EntryFree
  | 0, _ => gives_exhausted
  | n + 1, c => by
      have hnumber : Gives
          (do
            let x ← expectSignedNumber "expression"
            return .expr (.number ⟨c.span.start, ← lastEnd⟩ x)) c Operand.EntryFree :=
        gives_bind fun _ _ => gives_bind fun _ _ => gives_pure rfl
      rw [parsePrimary]
      refine gives_get_bind ?_
      cases c.token with
      | target t => exact gives_parseTargeted constants _ t
      | keyword word =>
          cases word with
          | codeblock => exact gives_bind fun _ _ => gives_bind fun _ _ => gives_pure trivial
          | _ => exact gives_failHere _
      | ident name | varName name =>
          exact gives_bind fun _ _ => gives_pure (entryFree_substitute hconstants name none _)
      | number x => exact hnumber
      | string s | styledText s => exact gives_bind fun _ _ => gives_pure rfl
      | mark m =>
          cases m with
          | minus => exact hnumber
          | less => exact gives_parseVector _
          | leftParen =>
              refine gives_bind fun _ d => gives_peek_bind ?_
              cases d.token with
              | type base =>
                  refine (gives_parseType n).bind fun type _ htype => gives_bind fun _ _ => ?_
                  exact (gives_parseBinary hconstants n 0).bind fun value _ hvalue =>
                    gives_pure (Bool.and_eq_true_iff.mpr ⟨htype, hvalue⟩)
              | _ =>
                  exact (gives_parseExpr hconstants n).bind fun inner _ h => gives_bind fun _ _ =>
                    gives_pure h
          | leftBrace =>
              have hrest {entries : List (String × Expr)} {d : Cursor}
                  (h : Expr.entryFreeEntries entries) : Gives
                    (do
                      let _ ← expectMark .rightBrace "'\x7d' after dictionary"
                      return .expr (.dict ⟨c.span.start, ← lastEnd⟩ entries)) d
                    Operand.EntryFree :=
                gives_bind fun _ _ => gives_bind fun _ _ => gives_pure h
              exact gives_bind fun _ _ => gives_bind fun _ _ => .ite (hrest rfl)
                ((gives_parseEntries hconstants n).bind fun entries _ h => hrest h)
          | leftBracket =>
              have hrest {items : List Expr} {d : Cursor} (h : Expr.entryFreeItems items) : Gives
                    (do
                      let _ ← expectMark .rightBracket "']' after list"
                      return .expr (.list ⟨c.span.start, ← lastEnd⟩ items)) d
                    Operand.EntryFree :=
                gives_bind fun _ _ => gives_bind fun _ _ => gives_pure h
              exact gives_bind fun _ _ => gives_bind fun _ _ => .ite (hrest rfl)
                ((gives_parseItems hconstants n).bind fun items _ h => hrest h)
          | _ => exact gives_failHere _
      | _ => exact gives_failHere _

theorem gives_parseEntries {constants : Constants} (hconstants : constants.EntryFree) :
    ∀ (n : Nat) {c : Cursor},
    Gives (parseEntries constants n) c fun entries => Expr.entryFreeEntries entries
  | 0, _ => gives_exhausted
  | n + 1, c => by
      rw [parseEntries]
      refine gives_bind fun key _ => gives_bind fun _ _ => ?_
      refine (gives_parseExpr hconstants n).bind fun value _ h => gives_bind fun _ _ => .ite ?_ ?_
      · exact gives_pure (Bool.and_eq_true_iff.mpr ⟨h, rfl⟩)
      · exact gives_bind fun _ _ => (gives_parseEntries hconstants n).bind fun entries _ hentries =>
          gives_pure (Bool.and_eq_true_iff.mpr ⟨h, hentries⟩)

theorem gives_parseItems {constants : Constants} (hconstants : constants.EntryFree) :
    ∀ (n : Nat) {c : Cursor},
    Gives (parseItems constants n) c fun items => Expr.entryFreeItems items
  | 0, _ => gives_exhausted
  | n + 1, c => by
      rw [parseItems]
      refine (gives_parseExpr hconstants n).bind fun item _ h => gives_bind fun _ _ => .ite ?_ ?_
      · exact gives_pure (Bool.and_eq_true_iff.mpr ⟨h, rfl⟩)
      · exact gives_bind fun _ _ => (gives_parseItems hconstants n).bind fun items _ hitems =>
          gives_pure (Bool.and_eq_true_iff.mpr ⟨h, hitems⟩)

end

theorem mem_of_storageOf? {t : Token} {storage : Storage} (h : storageOf? t = some storage) :
    storage ∈ [Storage.var, .local, .game, .save] := by
  unfold storageOf? at h
  split at h
  all_goals cases h
  all_goals decide

section

variable {constants : Constants} (hconstants : constants.EntryFree)

include hconstants

theorem gives_parseInitial (allowed : Bool) (n : Nat) :
    Gives (parseInitial constants allowed n) c fun value =>
      (allowed = false → value = none) ∧ ∀ e ∈ value, e.entryFree := by
  have hnone {d : Cursor} : Gives (pure none : Parse (Option Expr)) d fun value =>
      (allowed = false → value = none) ∧ ∀ e ∈ value, e.entryFree :=
    gives_pure (by simp)
  rw [parseInitial]
  cases allowed with
  | false => exact hnone
  | true =>
      refine gives_bind fun _ _ => .ite ?_ hnone
      refine (gives_parseExpr hconstants n).bind fun value _ h => gives_pure ⟨nofun, ?_⟩
      rintro _ ⟨⟩
      exact h

theorem gives_parseVarDef (withValue : Bool) (n : Nat) :
    Gives (parseVarDef constants withValue n) c fun d =>
      storageOf? c.token = some d.storage ∧ (withValue = false → d.value = none) ∧
        d.type.entryFree ∧ ∀ e ∈ d.value, e.entryFree := by
  rw [parseVarDef]
  refine gives_spanHere_bind (gives_peek_bind ?_)
  cases storageOf? c.token with
  | none => exact gives_failHere _
  | some storage =>
      refine gives_bind fun _ _ => gives_bind fun name _ => gives_bind fun _ _ => ?_
      refine (gives_parseType n).bind fun type _ htype => ?_
      refine (gives_parseInitial hconstants withValue n).bind fun value _ hvalue => ?_
      exact gives_bind fun _ _ => gives_bind fun _ _ => gives_pure ⟨rfl, hvalue.1, htype, hvalue.2⟩

theorem gives_parseConstantValue (n : Nat) :
    Gives (parseConstantValue constants n) c Constant.EntryFree := by
  have haction : Gives
      (do
        let ref ← parseActionRef
        if (← peek) = .mark .leftParen then
          let args ← parseArgs constants n
          return .expr (.action ⟨c.span.start, ← lastEnd⟩ ref args)
        else return .action ref) c Constant.EntryFree := by
    refine gives_bind fun ref _ => gives_bind fun _ _ => .ite ?_ (gives_pure trivial)
    exact (gives_parseArgs hconstants n).bind fun args _ h => gives_bind fun _ _ => gives_pure h
  have hexpr : Gives (do return .expr (← parseExpr constants n)) c Constant.EntryFree :=
    (gives_parseExpr hconstants n).bind fun e _ h => gives_pure h
  rw [parseConstantValue]
  refine gives_spanHere_bind (gives_peek_bind ?_)
  cases c.token with
  | target t => exact haction
  | keyword word =>
      cases word with
      | codeblock => exact haction
      | _ => exact hexpr
  | _ => exact hexpr

theorem gives_parseConst (n : Nat) :
    Gives (parseConst constants n) c Constants.EntryFree := by
  rw [parseConst]
  refine gives_bind fun _ _ => gives_bind fun r _ => gives_bind fun _ _ => ?_
  refine (gives_parseConstantValue hconstants n).bind fun constant _ h => gives_bind fun _ _ => ?_
  exact gives_pure (List.forall_mem_cons.mpr ⟨h, hconstants⟩)

theorem gives_parseStmt (n : Nat) : Gives (parseStmt constants n) c Stmt.WellFormed := by
  rw [parseStmt]
  refine gives_peek_bind (.ite ?_ (gives_bind fun _ _ => ?_))
  · refine (gives_parseVarDef hconstants true n).bind fun d _ h => gives_pure ⟨?_, h.2.2⟩
    exact mem_of_storageOf? h.1
  · refine (gives_parseExpr hconstants n).bind fun e _ h => ?_
    split
    case isTrue hstatement => exact gives_bind fun _ _ => gives_pure ⟨hstatement, h⟩
    case isFalse => exact gives_failAt _ _

theorem gives_parseBody (n : Nat) {c : Cursor} :
    Gives (parseBody constants n) c fun body => ∀ stmt ∈ body, stmt.WellFormed := by
  induction n generalizing c with
  | zero => exact gives_exhausted
  | succ n ih =>
      have hnext : Gives
          (do
            let stmt ← parseStmt constants n
            let stmts ← parseBody constants n
            return stmt :: stmts) c fun body => ∀ stmt ∈ body, stmt.WellFormed :=
        (gives_parseStmt hconstants n).bind fun stmt _ h => ih.bind fun stmts _ h' =>
          gives_pure (List.forall_mem_cons.mpr ⟨h, h'⟩)
      rw [parseBody]
      refine gives_peek_bind ?_
      cases c.token with
      | mark m =>
          cases m with
          | rightBrace => exact gives_pure (by simp)
          | _ => exact hnext
      | eof => exact gives_failHere _
      | _ => exact hnext

end

theorem gives_parseParam (n : Nat) : Gives (parseParam n) c fun p => p.type.entryFree := by
  rw [parseParam]
  refine gives_bind fun _ _ => gives_bind fun _ _ => gives_bind fun _ _ => ?_
  exact (gives_parseType n).bind fun type _ h => gives_bind fun _ _ => gives_bind fun _ _ =>
    gives_bind fun _ _ => gives_pure h

theorem gives_parseParams (n : Nat) {c : Cursor} :
    Gives (parseParams n) c fun params => ∀ p ∈ params, p.type.entryFree := by
  induction n generalizing c with
  | zero => exact gives_exhausted
  | succ n ih =>
      rw [parseParams]
      refine gives_bind fun _ _ => .ite (gives_pure (by simp)) ?_
      refine (gives_parseParam n).bind fun p _ h => gives_bind fun _ _ => .ite ?_ ?_
      · exact gives_pure (by simpa using h)
      · exact gives_bind fun _ _ => ih.bind fun params _ h' =>
          gives_pure (List.forall_mem_cons.mpr ⟨h, h'⟩)

theorem gives_parseFunc {constants : Constants} (hconstants : constants.EntryFree) (n : Nat) :
    Gives (parseFunc constants n) c fun d => (Definition.func d).WellFormed := by
  rw [parseFunc]
  refine gives_bind fun _ _ => gives_bind fun _ _ => gives_bind fun _ _ => ?_
  refine (gives_parseParams n).bind fun params _ h => gives_bind fun _ _ => ?_
  refine gives_bind fun _ _ => .ite (gives_pure ⟨h, nofun⟩) (gives_bind fun _ _ => ?_)
  refine (gives_parseBody hconstants n).bind fun body _ hbody => gives_bind fun _ _ => ?_
  refine gives_pure ⟨h, ?_⟩
  rintro _ ⟨⟩
  exact hbody

theorem gives_parseDefinitions (n : Nat) {constants : Constants} (hconstants : constants.EntryFree)
    {c : Cursor} : Gives (parseDefinitions constants n) c fun definitions =>
      ∀ d ∈ definitions, d.WellFormed := by
  induction n generalizing constants c with
  | zero => exact gives_exhausted
  | succ n ih =>
      have hvar (hstorage : ∀ storage, storageOf? c.token = some storage →
          storage ∈ [Storage.game, .save]) : Gives
            (do
              let d ← parseVarDef constants false n
              return .var d :: (← parseDefinitions constants n)) c fun definitions =>
            ∀ d ∈ definitions, d.WellFormed := by
        refine (gives_parseVarDef hconstants false n).bind fun d _ h => ?_
        obtain ⟨hkept, hvalue, htype, -⟩ := h
        refine (ih hconstants).bind fun definitions _ h' => gives_pure ?_
        exact List.forall_mem_cons.mpr ⟨⟨hstorage _ hkept, hvalue rfl, htype⟩, h'⟩
      rw [parseDefinitions]
      refine gives_peek_bind ?_
      cases htoken : c.token with
      | eof => exact gives_pure (by simp)
      | keyword word =>
          cases word with
          | game | save => exact hvar (by simp [htoken, storageOf?])
          | func =>
              refine (gives_parseFunc hconstants n).bind fun d _ h => ?_
              exact (ih hconstants).bind fun definitions _ h' =>
                gives_pure (List.forall_mem_cons.mpr ⟨h, h'⟩)
          | const => exact (gives_parseConst hconstants n).bind fun constants _ h => ih h
          | _ => exact gives_failHere _
      | _ => exact gives_failHere _

end Parser

theorem parse_wellFormed {tokens : List Lexeme} {definitions : List Definition}
    (h : parse tokens = .ok definitions) : ∀ d ∈ definitions, d.WellFormed := by
  obtain ⟨⟨definitions', d⟩, hrun, hdone⟩ := bind_eq_ok.mp h
  cases hdone
  exact Parser.gives_parseDefinitions _ (List.forall_mem_nil _) _ _ hrun

theorem parseSource_wellFormed {source : String} {definitions : List Definition}
    (h : parseSource source = .ok definitions) : ∀ d ∈ definitions, d.WellFormed := by
  obtain ⟨lexemes, -, hparse⟩ := bind_eq_ok.mp h
  exact parse_wellFormed (mapError_eq_ok.mp hparse)

end DiamondScript
