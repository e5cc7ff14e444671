import DiamondScript.Proofs.Expansion
import DiamondScript.Proofs.Inversion
import DiamondScript.Proofs.Nesting
import DiamondScript.Proofs.OperatorTree

namespace DiamondScript.Parser

open OperatorTree

variable {constants : Constants}

/-- An operand of a chain, from its first token to the place behind it. -/
inductive Atom (constants : Constants) (c : Cursor) : Expr → Cursor → Prop
  | name {name : String} (written : c.token.Names name) (free : constants.lookup name = none) :
      Atom constants c (.variable c.span name) c.advance
  | number {x : Binary64} (written : c.token = .number x) :
      Atom constants c (.number ⟨c.span.start, c.advance.lastEnd⟩ x) c.advance
  | negative {x : Binary64} (sign : c.token = .mark .minus)
      (written : c.advance.token = .number x) :
      Atom constants c (.number ⟨c.span.start, c.advance.advance.lastEnd⟩ x.neg) c.advance.advance
  | str {s : String} (written : c.token = .string s) : Atom constants c (.str c.span s) c.advance
  | styledText {s : String} (written : c.token = .styledText s) :
      Atom constants c (.styledText c.span s) c.advance
  | group {n : Nat} {e : Expr} {d : Cursor} (opening : c.token = .mark .leftParen)
      (inner : parseExpr constants n c.advance = .ok (e, d))
      (closing : d.token = .mark .rightParen) : Atom constants c e d.advance

def Continues (e : Expr) (t : Token) : Prop :=
  t = .mark .leftBracket ∨ t = .mark .dot ∨
    (t = .mark .leftParen ∧ ∃ span name, e = .variable span name)

/-- The links of a chain behind an operand. Behind the last one is a token that goes on neither
with the chain nor with that operand. -/
inductive Linked (constants : Constants) : Expr → Cursor → List Link → Cursor → Prop
  | last {e : Expr} {c : Cursor} (ends : binaryOp? c.token = none) (apart : ¬ Continues e c.token) :
      Linked constants e c [] c
  | more {e next : Expr} {c m d : Cursor} {op : BinaryOp} {strength : Nat} {leftward : Bool}
      {links : List Link} (sign : binaryOp? c.token = some (op, strength, leftward))
      (operand : Atom constants c.advance next m) (rest : Linked constants next m links d) :
      Linked constants e c (⟨op, c.span, next⟩ :: links) d

def Chain (constants : Constants) (c : Cursor) (first : Expr) (links : List Link) (d : Cursor) :
    Prop :=
  ∃ m, Atom constants c first m ∧ Linked constants first m links d

theorem strength_of_binaryOp? {t : Token} {op : BinaryOp} {strength : Nat} {leftward : Bool}
    (h : binaryOp? t = some (op, strength, leftward)) :
    strength = op.strength ∧ leftward = decide (op ≠ .pow) := by
  unfold binaryOp? at h
  split at h
  all_goals cases h
  all_goals exact ⟨rfl, rfl⟩

theorem not_continues_of_binaryOp? {t : Token} {operator : BinaryOp × Nat × Bool}
    (h : binaryOp? t = some operator) (e : Expr) : ¬ Continues e t := by
  rintro (rfl | rfl | ⟨rfl, -⟩) <;> cases h

theorem Linked.apart {e : Expr} {c d : Cursor} {links : List Link}
    (h : Linked constants e c links d) : ¬ Continues e c.token := by
  cases h with
  | last ends apart => exact apart
  | more sign operand rest => exact not_continues_of_binaryOp? sign e

theorem run_expectSignedNumber_number {c : Cursor} {x : Binary64} (h : c.token = .number x)
    (what : String) : expectSignedNumber what c = .ok (x, c.advance) := by
  rw [expectSignedNumber, run_eat_bind, if_neg (by simp [h]), run_peek_bind, h]
  rfl

theorem run_expectSignedNumber_negative {c : Cursor} {x : Binary64}
    (hsign : c.token = .mark .minus) (h : c.advance.token = .number x) (what : String) :
    expectSignedNumber what c = .ok (x.neg, c.advance.advance) := by
  rw [expectSignedNumber, run_eat_bind, if_pos hsign, run_peek_bind, h]
  rfl

theorem settles_primary {c d : Cursor} {e : Expr} (h : Atom constants c e d) :
    Settles (parsePrimary constants) c (.expr e, d) := by
  cases h with
  | name written free =>
      refine settles_of_succ fun n => ?_
      rw [parsePrimary, run_get_bind]
      rcases written with written | written
      all_goals
        simp only [written, run_advance_bind, substitute, free]
        rfl
  | number written =>
      refine settles_of_succ fun n => ?_
      rw [parsePrimary, run_get_bind]
      simp only [written]
      exact run_bind_eq_ok.mpr ⟨_, _, run_expectSignedNumber_number written _, rfl⟩
  | negative sign written =>
      refine settles_of_succ fun n => ?_
      rw [parsePrimary, run_get_bind]
      simp only [sign]
      exact run_bind_eq_ok.mpr ⟨_, _, run_expectSignedNumber_negative sign written _, rfl⟩
  | str written | styledText written =>
      refine settles_of_succ fun n => ?_
      rw [parsePrimary, run_get_bind]
      simp only [written, run_advance_bind, run_pure]
  | group opening inner closing =>
      rename_i n d
      refine (settles_of_refines refines_parseExpr inner).succ fun n hinner => ?_
      rw [parsePrimary, run_get_bind]
      simp only [opening, run_advance_bind, run_peek_bind]
      have hopens := (opens_of_parseExpr inner).2.1
      have hclose : (do
          let inner ← parseExpr constants n
          let _ ← expectMark .rightParen "')' after expression"
          return .expr inner : Parse Operand) c.advance = .ok (.expr e, d.advance) := by
        rw [run_bind_of_ok hinner, expectMark, run_expect_bind, if_pos closing]
        rfl
      cases htoken : c.advance.token with
      | type base => exact absurd htoken (hopens base)
      | _ => exact hclose

theorem settles_indices (constants : Constants) {c : Cursor} {e : Expr}
    (hapart : ¬ Continues e c.token) : Settles (parseIndices constants e) c (e, c) := by
  refine settles_of_succ fun n => ?_
  simp only [Continues, not_or] at hapart
  rw [parseIndices, run_eat_bind, if_neg hapart.1]
  simp only [Bool.false_eq_true, if_false]
  rw [run_eat_bind, if_neg hapart.2.1]
  rfl

theorem settles_atom {c d : Cursor} {e : Expr} (h : Atom constants c e d)
    (hapart : ¬ Continues e d.token) : Settles (parsePostfix constants) c (e, d) := by
  refine (settles_primary h).andThen (settles_indices constants hapart)
    fun n hprimary hindices => ?_
  rw [parsePostfix, run_bind_of_ok hprimary, run_peek_bind]
  cases e with
  | «variable» span name =>
      have hcall : d.token ≠ .mark .leftParen := fun hparen =>
        hapart (.inr (.inr ⟨hparen, span, name, rfl⟩))
      simp only [hcall, if_false]
      exact hindices
  | _ => exact hindices

/-- How strong the operators behind an operator must be to be taken with its right operand. -/
def leastBehind (op : BinaryOp) : Nat := if op = .pow then op.strength else op.strength + 1

theorem fitsRight_of_le {op : BinaryOp} {t : OperatorTree}
    (h : ∀ o ∈ t.root?, leastBehind op ≤ o.strength) : FitsRight op t := by
  unfold FitsRight
  split
  case isTrue hop =>
    subst hop
    exact fun o ho => eq_pow_of_strength (h o ho)
  case isFalse hop =>
    intro o ho
    have hle := h o ho
    rw [leastBehind, if_neg hop] at hle
    exact hle

theorem fitsLeft_node {op next : BinaryOp} (h : next.strength < leastBehind op) (opSpan : Span)
    (left right : OperatorTree) : FitsLeft next (node op opSpan left right) := by
  have hnext : next ≠ .pow ∧ next.strength ≤ op.strength := by
    revert h
    cases op <;> cases next <;> decide
  rw [FitsLeft, if_neg hnext.1]
  intro o ho
  cases ho
  exact hnext.2

/-- The parser goes on from a left operand: it takes links up to an operator that is too weak, and
what it makes of them is well grouped. -/
structure Extends (constants : Constants) (least : Nat) (left : OperatorTree) (c : Cursor)
    (t : OperatorTree) (taken rest : List Link) (m : Cursor) : Prop where
  settles : Settles (parseOperators constants least left.toExpr) c (t.toExpr, m)
  shaped : t.Shaped
  first_eq : t.first = left.first
  links_eq : t.links = left.links ++ taken
  strong : ∀ o ∈ t.root?, o ∈ left.root? ∨ least ≤ o.strength
  weak : ∀ k ∈ rest.head?, k.op.strength < least

theorem extends_self {least : Nat} {left : OperatorTree} {c : Cursor} {links : List Link}
    (hshaped : left.Shaped) (hweak : ∀ k ∈ links.head?, k.op.strength < least)
    (h : ∀ n, parseOperators constants least left.toExpr (n + 1) c = .ok (left.toExpr, c)) :
    Extends constants least left c left [] links c where
  settles := settles_of_succ h
  shaped := hshaped
  first_eq := rfl
  links_eq := (List.append_nil _).symm
  strong := fun _ ho => .inl ho
  weak := hweak

theorem Extends.settles_binary {least : Nat} {t : OperatorTree} {c m d : Cursor} {e : Expr}
    {taken rest : List Link} (hoperand : Settles (parsePostfix constants) c (e, m))
    (h : Extends constants least (.operand e) m t taken rest d) :
    Settles (parseBinary constants least) c (t.toExpr, d) := by
  refine hoperand.andThen h.settles fun n hpostfix hoperators => ?_
  rw [parseBinary, run_bind_of_ok hpostfix]
  exact hoperators

theorem Extends.node {least : Nat} {left right t : OperatorTree} {c m₁ m₂ m₃ : Cursor}
    {op : BinaryOp} {strength : Nat} {leftward : Bool} {e : Expr}
    {taken taken' rest rest' : List Link}
    (hsign : binaryOp? c.token = some (op, strength, leftward)) (hle : least ≤ op.strength)
    (hoperand : Settles (parsePostfix constants) c.advance (e, m₁))
    (h : Extends constants (leastBehind op) (.operand e) m₁ right taken rest m₂)
    (h' : Extends constants least (.node op c.span left right) m₂ t taken' rest' m₃) :
    Extends constants least left c t (⟨op, c.span, e⟩ :: (taken ++ taken')) rest' m₃ where
  settles := by
    obtain ⟨rfl, rfl⟩ := strength_of_binaryOp? hsign
    refine (h.settles_binary hoperand).andThen h'.settles fun n hbinary hoperators => ?_
    have hleast :
        (if decide (op ≠ .pow) then op.strength + 1 else op.strength) = leastBehind op := by
      unfold leastBehind
      split <;> split <;> simp_all
    rw [parseOperators, run_get_bind]
    simp only [hsign, if_neg (Nat.not_lt.mpr hle), run_advance_bind]
    rw [hleast, run_bind_of_ok hbinary]
    exact hoperators
  shaped := h'.shaped
  first_eq := h'.first_eq
  links_eq := by
    rw [h'.links_eq, OperatorTree.links, h.first_eq, h.links_eq]
    simp [OperatorTree.first, OperatorTree.links]
  strong := by
    intro o ho
    rcases h'.strong o ho with ho | ho
    · cases ho
      exact .inr hle
    · exact .inr ho
  weak := h'.weak

theorem exists_extends (least : Nat) (left : OperatorTree) {last : Expr} {c d : Cursor}
    {links : List Link} (h : Linked constants last c links d) (hshaped : left.Shaped)
    (hfits : ∀ k ∈ links.head?, FitsLeft k.op left) :
    ∃ (t : OperatorTree) (taken rest : List Link) (last' : Expr) (m : Cursor),
      links = taken ++ rest ∧ Linked constants last' m rest d ∧
      Extends constants least left c t taken rest m := by
  induction hn : links.length using Nat.strongRecOn generalizing least left last c links with
  | _ n ih =>
  cases h with
  | last ends apart =>
      refine ⟨left, [], [], _, _, rfl, .last ends apart, extends_self hshaped (by simp) fun n => ?_⟩
      rw [parseOperators, run_get_bind, ends]
      rfl
  | more sign operand rest =>
      rename_i next m op strength leftward links
      have hstrength := (strength_of_binaryOp? sign).1
      by_cases hlt : op.strength < least
      · refine ⟨left, [], _, last, c, rfl, .more sign operand rest,
          extends_self hshaped ?_ fun n => ?_⟩
        · intro k hk
          cases hk
          exact hlt
        · rw [parseOperators, run_get_bind]
          simp only [sign, hstrength, if_pos hlt]
          rfl
      · subst hn
        obtain ⟨right, taken, rest₁, last₁, m₁, rfl, hrest₁, hright⟩ := ih links.length
          (Nat.lt_succ_self _) (leastBehind op) (.operand next) rest trivial
          (fun k _ => fitsLeft_operand k.op next) rfl
        have hfitsRight : FitsRight op right := fitsRight_of_le fun o ho =>
          (hright.strong o ho).resolve_left (Option.not_mem_none o)
        have hnode : (node op c.span left right).Shaped :=
          ⟨hfits _ rfl, hfitsRight, hshaped, hright.shaped⟩
        obtain ⟨t, taken', rest₂, last₂, m₂, rfl, hrest₂, ht⟩ := ih rest₁.length
          (by simp only [List.length_cons, List.length_append]; omega) least _ hrest₁ hnode
          (fun k hk => fitsLeft_node (hright.weak k hk) _ _ _) rfl
        refine ⟨t, _, rest₂, last₂, m₂, ?_, hrest₂, .node sign (Nat.not_lt.mp hlt)
          (settles_atom operand rest.apart) hright ht⟩
        rw [List.cons_append, List.append_assoc]

/-- Precedence climbing takes a whole chain and finds the one right grouping of it: children fit
below their parents, and no other grouping has that. A bound that is too small is used up, and no
bound leads to another result. -/
theorem parseBinary_groups {c d : Cursor} {first : Expr} {links : List Link}
    (h : Chain constants c first links d) :
    ∃ t : OperatorTree,
      (∃ least, ∀ n, least ≤ n → parseBinary constants 0 n c = .ok (t.toExpr, d)) ∧
      (∀ n, (∃ span, parseBinary constants 0 n c = .error ⟨.exhausted, span⟩) ∨
        parseBinary constants 0 n c = .ok (t.toExpr, d)) ∧
      t.first = first ∧ t.links = links ∧ t.Shaped ∧
      ∀ u : OperatorTree, u.first = first → u.links = links → u.Shaped → u = t := by
  obtain ⟨m, hatom, hlinked⟩ := h
  obtain ⟨t, taken, rest, last, m', rfl, hrest, ht⟩ :=
    exists_extends 0 (.operand first) hlinked trivial fun k _ => fitsLeft_operand k.op first
  -- No operator is too weak for the strength zero, so the rest of the chain is empty.
  cases hrest with
  | more => exact absurd (ht.weak _ rfl) (Nat.not_lt_zero _)
  | last ends apart =>
      have hsettles := ht.settles_binary (settles_atom hatom hlinked.apart)
      have hfirst : t.first = first := ht.first_eq
      have hlinks : t.links = taken ++ [] := by
        rw [ht.links_eq, List.append_nil]
        rfl
      exact ⟨t, hsettles, hsettles.exhausted_or (refines_parseBinary 0), hfirst, hlinks, ht.shaped,
        fun u hu hul hus => hus.unique ht.shaped (hu.trans hfirst.symm) (hul.trans hlinks.symm)⟩

/-- The chain `a - 0 * (b + 0) ^ -0 ^ c`. -/
theorem parseBinary_groups_mixed :
    let place (ts : List Token) : Cursor := ⟨0, ts.map fun t => ⟨t, default⟩⟩
    let rest : List Token := [.mark .semicolon, .eof]
    let c := place ([.ident "a", .mark .minus, .number (.zero false), .mark .star, .mark .leftParen,
      .ident "b", .mark .plus, .number (.zero false), .mark .rightParen, .mark .caret, .mark .minus,
      .number (.zero false), .mark .caret, .ident "c"] ++ rest)
    let zero (negative : Bool) : Expr := .number default (.zero negative)
    let name (s : String) : Expr := .variable default s
    let sum : Expr := .binary default .add default (name "b") (zero false)
    let links : List Link := [⟨.sub, default, zero false⟩, ⟨.mul, default, sum⟩,
      ⟨.pow, default, zero true⟩, ⟨.pow, default, name "c"⟩]
    let tree : OperatorTree := .node .sub default (.operand (name "a"))
      (.node .mul default (.operand (zero false)) (.node .pow default (.operand sum)
        (.node .pow default (.operand (zero true)) (.operand (name "c")))))
    Chain [] c (name "a") links (place rest) ∧
      ∃ least, ∀ n, least ≤ n → parseBinary [] 0 n c = .ok (tree.toExpr, place rest) := by
  intro place rest c zero name sum links tree
  have hends : ∀ e, ¬ Continues e (place rest).token := by
    rintro e (h | h | ⟨h, -⟩) <;> cases h
  have hchain : Chain [] c (name "a") links (place rest) := by
    refine ⟨_, .name (.inl rfl) rfl, ?_⟩
    refine .more rfl (.number rfl) ?_
    refine .more rfl (.group (n := 9) rfl rfl rfl) ?_
    refine .more rfl (.negative (x := .zero false) rfl rfl) ?_
    refine .more rfl (.name (.inl rfl) rfl) ?_
    exact .last rfl (hends _)
  obtain ⟨t, hparse, -, -, -, -, hunique⟩ := parseBinary_groups hchain
  rw [hunique tree rfl rfl (by decide)]
  exact ⟨hchain, hparse⟩

end DiamondScript.Parser
