import DiamondScript.Language.Parser
import DiamondScript.Proofs.Outcome

namespace DiamondScript.Parser

section

variable {α β : Type} {c : Cursor}

theorem run_bind_eq_ok {p : Parse α} {f : α → Parse β} {r : β × Cursor} :
    (p >>= f) c = .ok r ↔ ∃ a d, p c = .ok (a, d) ∧ f a d = .ok r := by
  change (p c >>= fun s => f s.1 s.2) = .ok r ↔ _
  rw [bind_eq_ok]
  exact Prod.exists

@[simp] theorem run_pure (a : α) : (pure a : Parse α) c = .ok (a, c) := rfl

@[simp] theorem run_get_bind (f : Cursor → Parse β) : (get >>= f) c = f c c := rfl

@[simp] theorem run_peek_bind (f : Token → Parse β) : (peek >>= f) c = f c.token c := rfl

@[simp] theorem run_spanHere_bind (f : Span → Parse β) : (spanHere >>= f) c = f c.span c := rfl

@[simp] theorem run_lastEnd_bind (f : Nat → Parse β) : (lastEnd >>= f) c = f c.lastEnd c := rfl

@[simp] theorem run_advance_bind (f : Unit → Parse β) : (advance >>= f) c = f () c.advance := rfl

@[simp] theorem run_map_lastEnd (f : Nat → β) : (f <$> lastEnd) c = .ok (f c.lastEnd, c) := rfl

@[simp] theorem run_map_advance (f : Unit → β) : (f <$> advance) c = .ok (f (), c.advance) := rfl

theorem run_eat_bind (t : Token) (f : Bool → Parse β) :
    (eat t >>= f) c = if c.token = t then f true c.advance else f false c := by
  rw [eat, bind_assoc, run_peek_bind]
  split <;> rfl

theorem run_expect_bind (t : Token) (what : String) (f : Span → Parse β) :
    (expect t what >>= f) c =
      if c.token = t then f c.span c.advance else .error ⟨.expected what c.token, c.span⟩ := by
  rw [expect, bind_assoc, run_get_bind]
  split <;> rfl

end

end DiamondScript.Parser
