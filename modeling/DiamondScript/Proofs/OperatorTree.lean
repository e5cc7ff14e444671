import DiamondScript.Language.Expr
import Mathlib.Data.List.Basic

namespace DiamondScript

def BinaryOp.strength : BinaryOp → Nat
  | .add | .sub => 10
  | .mul | .div => 20
  | .pow => 30

structure Link where
  op : BinaryOp
  opSpan : Span
  operand : Expr

/-- A grouping of a chain. What is inside an operand is no part of it. -/
inductive OperatorTree where
  | operand (e : Expr)
  | node (op : BinaryOp) (opSpan : Span) (left right : OperatorTree)

namespace OperatorTree

def toExpr : OperatorTree → Expr
  | .operand e => e
  | .node op opSpan left right =>
    .binary (left.toExpr.span.merge right.toExpr.span) op opSpan left.toExpr right.toExpr

def root? : OperatorTree → Option BinaryOp
  | .operand _ => none
  | .node op .. => some op

def first : OperatorTree → Expr
  | .operand e => e
  | .node _ _ left _ => left.first

def links : OperatorTree → List Link
  | .operand _ => []
  | .node op opSpan left right => left.links ++ ⟨op, opSpan, right.first⟩ :: right.links

/-- What may be a left child: below a power only an operand, else what binds as tightly. -/
def FitsLeft (op : BinaryOp) (t : OperatorTree) : Prop :=
  if op = .pow then t.root? = none else ∀ o ∈ t.root?, op.strength ≤ o.strength

/-- What may be a right child: below a power an operand or another power, else what binds more
tightly. -/
def FitsRight (op : BinaryOp) (t : OperatorTree) : Prop :=
  if op = .pow then ∀ o ∈ t.root?, o = .pow else ∀ o ∈ t.root?, op.strength < o.strength

def Shaped : OperatorTree → Prop
  | .operand _ => True
  | .node op _ left right => FitsLeft op left ∧ FitsRight op right ∧ left.Shaped ∧ right.Shaped

instance (op : BinaryOp) (t : OperatorTree) : Decidable (FitsLeft op t) :=
  inferInstanceAs (Decidable (if op = .pow then t.root? = none else
    ∀ o ∈ t.root?, op.strength ≤ o.strength))

instance (op : BinaryOp) (t : OperatorTree) : Decidable (FitsRight op t) :=
  inferInstanceAs (Decidable (if op = .pow then ∀ o ∈ t.root?, o = .pow else
    ∀ o ∈ t.root?, op.strength < o.strength))

instance decidableShaped : (t : OperatorTree) → Decidable t.Shaped
  | .operand _ => .isTrue trivial
  | .node op _ left right =>
    have := decidableShaped left
    have := decidableShaped right
    inferInstanceAs (Decidable (FitsLeft op left ∧ FitsRight op right ∧ left.Shaped ∧
      right.Shaped))

variable {op : BinaryOp} {opSpan : Span} {left right t u : OperatorTree}

theorem eq_pow_of_strength {o : BinaryOp} (h : BinaryOp.pow.strength ≤ o.strength) : o = .pow := by
  cases o <;> first | rfl | exact absurd h (by decide)

theorem fitsLeft_operand (op : BinaryOp) (e : Expr) : FitsLeft op (operand e) := by
  simp [FitsLeft, root?]

theorem exists_root {k : Link} (h : k ∈ t.links) : ∃ o, t.root? = some o := by
  cases t with
  | operand e => cases h
  | node op => exact ⟨op, rfl⟩

def RootWeakest (t : OperatorTree) : Prop :=
  ∀ o ∈ t.root?, ∀ k ∈ t.links, o.strength ≤ k.op.strength

theorem FitsLeft.links (h : FitsLeft op t) (ht : t.RootWeakest) {k : Link} (hk : k ∈ t.links) :
    op ≠ .pow ∧ op.strength ≤ k.op.strength := by
  obtain ⟨o, ho⟩ := exists_root hk
  rw [FitsLeft] at h
  split at h
  case isTrue => simp [h] at ho
  case isFalse hop => exact ⟨hop, Nat.le_trans (h o ho) (ht o ho k hk)⟩

theorem FitsRight.links (h : FitsRight op t) (ht : t.RootWeakest) {k : Link} (hk : k ∈ t.links) :
    (op = .pow ∧ k.op = .pow) ∨ op.strength < k.op.strength := by
  obtain ⟨o, ho⟩ := exists_root hk
  have hle := ht o ho k hk
  rw [FitsRight] at h
  split at h
  case isTrue hop =>
    rw [h o ho] at hle
    exact .inl ⟨hop, eq_pow_of_strength hle⟩
  case isFalse => exact .inr (Nat.lt_of_lt_of_le (h o ho) hle)

theorem Shaped.rootWeakest (h : t.Shaped) : t.RootWeakest := by
  induction t with
  | operand e => nofun
  | node op opSpan left right ihl ihr =>
      obtain ⟨hleft, hright, hl, hr⟩ := h
      intro o ho k hk
      cases ho
      rcases List.mem_append.mp hk with hk | hk
      · exact (hleft.links (ihl hl) hk).2
      · rcases List.mem_cons.mp hk with rfl | hk
        · exact Nat.le_refl _
        · rcases hright.links (ihr hr) hk with ⟨hop, hpow⟩ | hlt
          · exact Nat.le_of_eq (by rw [hop, hpow])
          · exact Nat.le_of_lt hlt

/-- An operator in the left child of a second one does not have that one in its right child. -/
theorem Shaped.not_mem_right {op' : BinaryOp} {opSpan' : Span} {left' right' : OperatorTree}
    (h : (node op opSpan left right).Shaped) (h' : (node op' opSpan' left' right').Shaped)
    (hleft : ⟨op, opSpan, right.first⟩ ∈ left'.links) :
    (⟨op', opSpan', right'.first⟩ : Link) ∉ right.links := by
  intro hright
  obtain ⟨hne, hle⟩ := h'.1.links h'.2.2.1.rootWeakest hleft
  rcases h.2.1.links h.2.2.2.rootWeakest hright with ⟨-, hpow⟩ | hlt
  · exact hne hpow
  · exact absurd hlt (Nat.not_lt.mpr hle)

theorem append_cons_inj {α : Type} {as bs cs ds : List α} {a b : α}
    (h : as ++ a :: bs = cs ++ b :: ds) (hleft : a ∈ cs → b ∉ bs) (hright : b ∈ as → a ∉ ds) :
    as = cs ∧ a = b ∧ bs = ds := by
  rcases List.append_eq_append_iff.mp h with ⟨xs, rfl, heq⟩ | ⟨xs, rfl, heq⟩
  · cases xs with
    | nil =>
        cases heq
        exact ⟨(List.append_nil as).symm, rfl, rfl⟩
    | cons x xs =>
        cases heq
        exact absurd (List.mem_append_right xs List.mem_cons_self)
          (hleft (List.mem_append_right as List.mem_cons_self))
  · cases xs with
    | nil =>
        cases heq
        exact ⟨List.append_nil cs, rfl, rfl⟩
    | cons x xs =>
        cases heq
        exact absurd (List.mem_append_right xs List.mem_cons_self)
          (hright (List.mem_append_right cs List.mem_cons_self))

/-- A chain has at most one grouping in which all children fit. -/
theorem Shaped.unique (ht : t.Shaped) (hu : u.Shaped) (hfirst : t.first = u.first)
    (hlinks : t.links = u.links) : t = u := by
  induction t generalizing u with
  | operand e =>
      cases u with
      | operand e' => exact congrArg operand hfirst
      | node => simp [links] at hlinks
  | node op opSpan left right ihl ihr =>
      cases u with
      | operand e' => simp [links] at hlinks
      | node op' opSpan' left' right' =>
          obtain ⟨hl, hlink, hr⟩ :=
            append_cons_inj hlinks (ht.not_mem_right hu) (hu.not_mem_right ht)
          injection hlink with hop hspan hnext
          rw [hop, hspan, ihl ht.2.2.1 hu.2.2.1 hfirst hl, ihr ht.2.2.2 hu.2.2.2 hnext hr]

end OperatorTree
end DiamondScript
