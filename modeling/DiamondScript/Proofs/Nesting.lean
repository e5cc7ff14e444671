import DiamondScript.Proofs.Steps

namespace DiamondScript.Parser

section

variable {α β : Type}

/-- Wherever the first parser does not use up its bound, the second one does the same. -/
def Refines (p q : Parse α) : Prop :=
  ∀ c, (∃ span, p c = .error ⟨.exhausted, span⟩) ∨ q c = p c

theorem Refines.refl (p : Parse α) : Refines p p := fun _ => .inr rfl

theorem Refines.trans {p q r : Parse α} (h : Refines p q) (h' : Refines q r) : Refines p r := by
  intro c
  rcases h c with hp | hq
  · exact .inl hp
  · rw [← hq]
    exact h' c

theorem refines_exhausted (q : Parse α) : Refines exhausted q := fun c => .inl ⟨c.span, rfl⟩

theorem Refines.bind {p q : Parse α} (h : Refines p q) {f g : α → Parse β}
    (hfg : ∀ a, Refines (f a) (g a)) : Refines (p >>= f) (q >>= g) := by
  intro c
  have hrun : ∀ (p : Parse α) (f : α → Parse β),
      (p >>= f) c = p c >>= fun r => f r.1 r.2 := fun _ _ => rfl
  rw [hrun, hrun]
  rcases h c with ⟨span, hp⟩ | hq
  · rw [hp]
    exact .inl ⟨span, rfl⟩
  · rw [hq]
    cases p c with
    | error e => exact .inr rfl
    | ok r => exact hfg r.1 r.2

theorem Refines.ite {b : Prop} [Decidable b] {p p' q q' : Parse α} (h : Refines p q)
    (h' : Refines p' q') : Refines (if b then p else p') (if b then q else q') := by
  split
  · exact h
  · exact h'

end

variable {constants : Constants}

mutual

theorem refines_parseType : ∀ n, Refines (parseType n) (parseType (n + 1))
  | 0 => refines_exhausted _
  | n + 1 => by
      rw [parseType, parseType]
      refine .bind (.refl _) fun t => ?_
      cases t with
      | type base =>
          exact .bind (.refl _) fun _ => .bind (.refl _) fun b =>
            .ite (.bind (refines_parseTypeParams n) fun _ => .refl _) (.refl _)
      | _ => exact .refl _

theorem refines_parseTypeParams : ∀ n, Refines (parseTypeParams n) (parseTypeParams (n + 1))
  | 0 => refines_exhausted _
  | n + 1 => by
      rw [parseTypeParams, parseTypeParams]
      exact .bind (refines_parseType n) fun _ => .bind (.refl _) fun _ =>
        .ite (.bind (refines_parseTypeParams n) fun _ => .refl _) (.refl _)

end

mutual

theorem refines_parseExpr : ∀ n, Refines (parseExpr constants n) (parseExpr constants (n + 1))
  | 0 => refines_exhausted _
  | n + 1 => by
      rw [parseExpr, parseExpr]
      exact .bind (refines_parseBinary 0 n) fun _ => .bind (.refl _) fun _ =>
        .ite (.bind (.refl _) fun _ => .bind (refines_parseExpr n) fun _ => .refl _) (.refl _)

theorem refines_parseBinary (least : Nat) :
    ∀ n, Refines (parseBinary constants least n) (parseBinary constants least (n + 1))
  | 0 => refines_exhausted _
  | n + 1 => by
      rw [parseBinary, parseBinary]
      exact .bind (refines_parsePostfix n) fun left => refines_parseOperators least left n

theorem refines_parseOperators (least : Nat) (left : Expr) : ∀ n,
    Refines (parseOperators constants least left n) (parseOperators constants least left (n + 1))
  | 0 => refines_exhausted _
  | n + 1 => by
      rw [parseOperators, parseOperators]
      refine .bind (.refl _) fun c => ?_
      cases binaryOp? c.token with
      | none => exact .refl _
      | some operator =>
          exact .ite (.refl _) (.bind (.refl _) fun _ => .bind (refines_parseBinary _ n) fun _ =>
            refines_parseOperators least _ n)

theorem refines_parsePostfix :
    ∀ n, Refines (parsePostfix constants n) (parsePostfix constants (n + 1))
  | 0 => refines_exhausted _
  | n + 1 => by
      rw [parsePostfix, parsePostfix]
      refine .bind (refines_parsePrimary n) fun operand => .bind (.refl _) fun t => ?_
      cases operand with
      | action ref span =>
          have hindices : ∀ args, Refines
              (do parseIndices constants (.action ⟨span.start, ← lastEnd⟩ ref args) n)
              (do parseIndices constants (.action ⟨span.start, ← lastEnd⟩ ref args) (n + 1)) :=
            fun _ => .bind (.refl _) fun _ => refines_parseIndices _ n
          exact .ite (.bind (refines_parseArgs n) hindices) (.bind (.refl _) hindices)
      | expr e =>
          cases e with
          | «variable» span name =>
              exact .ite (.bind (refines_parseArgs n) fun _ => .bind (.refl _) fun _ =>
                refines_parseIndices _ n) (refines_parseIndices _ n)
          | _ => exact refines_parseIndices _ n

theorem refines_parseIndices (object : Expr) : ∀ n,
    Refines (parseIndices constants object n) (parseIndices constants object (n + 1))
  | 0 => refines_exhausted _
  | n + 1 => by
      rw [parseIndices, parseIndices]
      exact .bind (.refl _) fun _ => .ite
        (.bind (refines_parseExpr n) fun _ => .bind (.refl _) fun _ => .bind (.refl _) fun _ =>
          refines_parseIndices _ n)
        (.bind (.refl _) fun _ => .ite
          (.bind (.refl _) fun _ => refines_parseIndices _ n)
          (.refl _))

theorem refines_parseArgs : ∀ n, Refines (parseArgs constants n) (parseArgs constants (n + 1))
  | 0 => refines_exhausted _
  | n + 1 => by
      rw [parseArgs, parseArgs]
      exact .bind (.refl _) fun _ => .bind (refines_parseArgsRest n) fun _ => .refl _

theorem refines_parseArgsRest :
    ∀ n, Refines (parseArgsRest constants n) (parseArgsRest constants (n + 1))
  | 0 => refines_exhausted _
  | n + 1 => by
      rw [parseArgsRest, parseArgsRest]
      exact .bind (.refl _) fun _ => .ite (.refl _) <| .bind (refines_parseExpr n) fun _ =>
        .bind (.refl _) fun _ => .ite (.refl _) <| .bind (.refl _) fun _ =>
          .bind (refines_parseArgsRest n) fun _ => .refl _

theorem refines_parsePrimary :
    ∀ n, Refines (parsePrimary constants n) (parsePrimary constants (n + 1))
  | 0 => refines_exhausted _
  | n + 1 => by
      rw [parsePrimary, parsePrimary]
      refine .bind (.refl _) fun c => ?_
      cases c.token with
      | mark m =>
          cases m with
          | leftParen =>
              refine .bind (.refl _) fun _ => .bind (.refl _) fun t => ?_
              cases t with
              | type base =>
                  exact .bind (refines_parseType n) fun _ => .bind (.refl _) fun _ =>
                    .bind (refines_parseBinary 0 n) fun _ => .refl _
              | _ => exact .bind (refines_parseExpr n) fun _ => .refl _
          | leftBrace =>
              exact .bind (.refl _) fun _ => .bind (.refl _) fun _ =>
                .ite (.refl _) (.bind (refines_parseEntries n) fun _ => .refl _)
          | leftBracket =>
              exact .bind (.refl _) fun _ => .bind (.refl _) fun _ =>
                .ite (.refl _) (.bind (refines_parseItems n) fun _ => .refl _)
          | _ => exact .refl _
      | keyword k => cases k <;> exact .refl _
      | _ => exact .refl _

theorem refines_parseEntries :
    ∀ n, Refines (parseEntries constants n) (parseEntries constants (n + 1))
  | 0 => refines_exhausted _
  | n + 1 => by
      rw [parseEntries, parseEntries]
      exact .bind (.refl _) fun _ => .bind (.refl _) fun _ => .bind (refines_parseExpr n) fun _ =>
        .bind (.refl _) fun _ => .ite (.refl _) <| .bind (.refl _) fun _ =>
          .bind (refines_parseEntries n) fun _ => .refl _

theorem refines_parseItems : ∀ n, Refines (parseItems constants n) (parseItems constants (n + 1))
  | 0 => refines_exhausted _
  | n + 1 => by
      rw [parseItems, parseItems]
      exact .bind (refines_parseExpr n) fun _ => .bind (.refl _) fun _ => .ite (.refl _) <|
        .bind (.refl _) fun _ => .bind (refines_parseItems n) fun _ => .refl _

end

theorem refines_parseInitial (allowed : Bool) (n : Nat) :
    Refines (parseInitial constants allowed n) (parseInitial constants allowed (n + 1)) := by
  rw [parseInitial, parseInitial]
  exact .ite (.bind (.refl _) fun _ => .ite (.bind (refines_parseExpr n) fun _ => .refl _)
    (.refl _)) (.refl _)

theorem refines_parseVarDef (withValue : Bool) (n : Nat) :
    Refines (parseVarDef constants withValue n) (parseVarDef constants withValue (n + 1)) := by
  rw [parseVarDef, parseVarDef]
  refine .bind (.refl _) fun _ => .bind (.refl _) fun t => ?_
  cases storageOf? t with
  | none => exact .refl _
  | some storage =>
      exact .bind (.refl _) fun _ => .bind (.refl _) fun _ => .bind (.refl _) fun _ =>
        .bind (refines_parseType n) fun _ => .bind (refines_parseInitial withValue n) fun _ =>
          .refl _

theorem refines_parseConstantValue (n : Nat) :
    Refines (parseConstantValue constants n) (parseConstantValue constants (n + 1)) := by
  have haction (start : Span) : Refines
      (do
        let ref ← parseActionRef
        if (← peek) = .mark .leftParen then
          let args ← parseArgs constants n
          return Constant.expr (.action ⟨start.start, ← lastEnd⟩ ref args)
        else return Constant.action ref)
      (do
        let ref ← parseActionRef
        if (← peek) = .mark .leftParen then
          let args ← parseArgs constants (n + 1)
          return Constant.expr (.action ⟨start.start, ← lastEnd⟩ ref args)
        else return Constant.action ref) :=
    .bind (.refl _) fun _ => .bind (.refl _) fun _ =>
      .ite (.bind (refines_parseArgs n) fun _ => .refl _) (.refl _)
  have hexpr : Refines (do return Constant.expr (← parseExpr constants n))
      (do return Constant.expr (← parseExpr constants (n + 1))) :=
    .bind (refines_parseExpr n) fun _ => .refl _
  rw [parseConstantValue, parseConstantValue]
  refine .bind (.refl _) fun start => .bind (.refl _) fun t => ?_
  cases t with
  | target t => exact haction start
  | keyword k =>
      cases k with
      | codeblock => exact haction start
      | _ => exact hexpr
  | _ => exact hexpr

theorem refines_parseConst (n : Nat) :
    Refines (parseConst constants n) (parseConst constants (n + 1)) := by
  rw [parseConst, parseConst]
  exact .bind (.refl _) fun _ => .bind (.refl _) fun _ => .bind (.refl _) fun _ =>
    .bind (refines_parseConstantValue n) fun _ => .refl _

theorem refines_parseParam (n : Nat) : Refines (parseParam n) (parseParam (n + 1)) := by
  rw [parseParam, parseParam]
  exact .bind (.refl _) fun _ => .bind (.refl _) fun _ => .bind (.refl _) fun _ =>
    .bind (refines_parseType n) fun _ => .refl _

theorem refines_parseParams : ∀ n, Refines (parseParams n) (parseParams (n + 1))
  | 0 => refines_exhausted _
  | n + 1 => by
      rw [parseParams, parseParams]
      exact .bind (.refl _) fun _ => .ite (.refl _) <| .bind (refines_parseParam n) fun _ =>
        .bind (.refl _) fun _ => .ite (.refl _) <| .bind (.refl _) fun _ =>
          .bind (refines_parseParams n) fun _ => .refl _

theorem refines_parseStmt (n : Nat) :
    Refines (parseStmt constants n) (parseStmt constants (n + 1)) := by
  rw [parseStmt, parseStmt]
  exact .bind (.refl _) fun _ => .ite (.bind (refines_parseVarDef true n) fun _ => .refl _)
    (.bind (.refl _) fun _ => .bind (refines_parseExpr n) fun _ => .refl _)

theorem refines_parseBody : ∀ n, Refines (parseBody constants n) (parseBody constants (n + 1))
  | 0 => refines_exhausted _
  | n + 1 => by
      have hnext : Refines
          (do
            let stmt ← parseStmt constants n
            let stmts ← parseBody constants n
            return stmt :: stmts)
          (do
            let stmt ← parseStmt constants (n + 1)
            let stmts ← parseBody constants (n + 1)
            return stmt :: stmts) :=
        .bind (refines_parseStmt n) fun _ => .bind (refines_parseBody n) fun _ => .refl _
      rw [parseBody, parseBody]
      refine .bind (.refl _) fun t => ?_
      cases t with
      | mark m =>
          cases m with
          | rightBrace => exact .refl _
          | _ => exact hnext
      | eof => exact .refl _
      | _ => exact hnext

theorem refines_parseFunc (n : Nat) :
    Refines (parseFunc constants n) (parseFunc constants (n + 1)) := by
  rw [parseFunc, parseFunc]
  exact .bind (.refl _) fun _ => .bind (.refl _) fun _ => .bind (.refl _) fun _ =>
    .bind (refines_parseParams n) fun _ => .bind (.refl _) fun _ => .bind (.refl _) fun _ =>
      .ite (.refl _) <| .bind (.refl _) fun _ => .bind (refines_parseBody n) fun _ => .refl _

theorem refines_parseDefinitions : ∀ (n : Nat) (constants : Constants),
    Refines (parseDefinitions constants n) (parseDefinitions constants (n + 1))
  | 0, _ => refines_exhausted _
  | n + 1, constants => by
      have hvar : Refines
          (do
            let d ← parseVarDef constants false n
            return .var d :: (← parseDefinitions constants n))
          (do
            let d ← parseVarDef constants false (n + 1)
            return .var d :: (← parseDefinitions constants (n + 1))) :=
        .bind (refines_parseVarDef false n) fun _ =>
          .bind (refines_parseDefinitions n constants) fun _ => .refl _
      rw [parseDefinitions, parseDefinitions]
      refine .bind (.refl _) fun t => ?_
      cases t with
      | keyword k =>
          cases k with
          | game | save => exact hvar
          | func =>
              exact .bind (refines_parseFunc n) fun _ =>
                .bind (refines_parseDefinitions n constants) fun _ => .refl _
          | const => exact .bind (refines_parseConst n) fun c => refines_parseDefinitions n c
          | _ => exact .refl _
      | _ => exact .refl _

section

variable {α β γ : Type} {p : Nat → Parse α} {c d : Cursor} {r : α × Cursor}

theorem refines_of_le (h : ∀ n, Refines (p n) (p (n + 1))) {n m : Nat} (hle : n ≤ m) :
    Refines (p n) (p m) := by
  obtain ⟨k, rfl⟩ := Nat.exists_eq_add_of_le hle
  clear hle
  induction k with
  | zero => exact .refl _
  | succ k ih => exact ih.trans (h (n + k))

/-- With every large enough bound the parser gives the result. -/
def Settles (p : Nat → Parse α) (c : Cursor) (r : α × Cursor) : Prop :=
  ∃ least, ∀ n, least ≤ n → p n c = .ok r

theorem settles_of_refines (h : ∀ n, Refines (p n) (p (n + 1))) {n : Nat} (hn : p n c = .ok r) :
    Settles p c r := by
  refine ⟨n, fun m hle => ?_⟩
  rcases refines_of_le h hle c with ⟨span, he⟩ | hm
  · rw [hn] at he
    cases he
  · exact hm.trans hn

/-- A smaller bound gives no other result. -/
theorem Settles.exhausted_or (hs : Settles p c r) (h : ∀ n, Refines (p n) (p (n + 1))) (n : Nat) :
    (∃ span, p n c = .error ⟨.exhausted, span⟩) ∨ p n c = .ok r := by
  obtain ⟨least, hleast⟩ := hs
  rcases refines_of_le h (Nat.le_max_left n least) c with he | hn
  · exact .inl he
  · exact .inr (hn.symm.trans (hleast _ (Nat.le_max_right n least)))

theorem settles_of_succ (h : ∀ n, p (n + 1) c = .ok r) : Settles p c r := by
  refine ⟨1, fun n hle => ?_⟩
  obtain ⟨m, rfl⟩ := Nat.exists_eq_add_of_le' hle
  exact h m

variable {q : Nat → Parse β} {w : Nat → Parse γ} {c' : Cursor} {r' : β × Cursor}
  {s : γ × Cursor}

theorem Settles.succ (h : Settles p c r) (hw : ∀ n, p n c = .ok r → w (n + 1) d = .ok s) :
    Settles w d s := by
  obtain ⟨least, h⟩ := h
  refine ⟨least + 1, fun n hle => ?_⟩
  obtain ⟨m, rfl⟩ := Nat.exists_eq_add_of_le' (Nat.le_trans (Nat.le_add_left 1 least) hle)
  exact hw m (h m (Nat.le_of_add_le_add_right hle))

theorem Settles.andThen (h : Settles p c r) (h' : Settles q c' r')
    (hw : ∀ n, p n c = .ok r → q n c' = .ok r' → w (n + 1) d = .ok s) : Settles w d s := by
  obtain ⟨least, h⟩ := h
  obtain ⟨least', h'⟩ := h'
  refine ⟨max least least' + 1, fun n hle => ?_⟩
  obtain ⟨m, rfl⟩ := Nat.exists_eq_add_of_le' (Nat.le_trans (Nat.le_add_left 1 _) hle)
  have hm : max least least' ≤ m := Nat.le_of_add_le_add_right hle
  exact hw m (h m (Nat.le_trans (Nat.le_max_left _ _) hm))
    (h' m (Nat.le_trans (Nat.le_max_right _ _) hm))

end

end DiamondScript.Parser
