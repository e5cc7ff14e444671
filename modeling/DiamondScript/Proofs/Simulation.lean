import DiamondScript.Proofs.Expansion
import DiamondScript.Proofs.Inversion

namespace DiamondScript

open Grammar (SignedNumber)

namespace Parser

open Cursor (ahead)

/-- What follows a phrase follows its expansion as well. Behind the value of a constant there is a
semicolon, but a parenthesis where the value is put. -/
structure Meets (E : List Token → List Token) (ts : List Token) : Prop where
  undeclared : ts.head? ≠ some (.mark .colon)
  token : (ahead (E ts)).token = (ahead ts).token ∨
    (ahead ts).token = .mark .semicolon ∧ (ahead (E ts)).token = .mark .rightParen

theorem meets_cons {E : List Token → List Token} {t : Token} {ts : List Token}
    (ht : E (t :: ts) = t :: E ts) (hcolon : t ≠ .mark .colon) : Meets E (t :: ts) := by
  refine ⟨by simpa using hcolon, .inl ?_⟩
  rw [ht]
  rfl

namespace Meets

variable {E : List Token → List Token} {ts : List Token} (h : Meets E ts)

include h

theorem eq {t : Token} (hts : (ahead ts).token = t) (ht : t ≠ .mark .semicolon) :
    (ahead (E ts)).token = t := by
  rcases h.token with htoken | ⟨htoken, -⟩
  · rw [htoken, hts]
  · exact absurd (hts.symm.trans htoken) ht

theorem ne {t : Token} (hts : (ahead ts).token ≠ t) (ht : t ≠ .mark .rightParen) :
    (ahead (E ts)).token ≠ t := by
  rcases h.token with htoken | ⟨-, htoken⟩
  · rwa [htoken]
  · rw [htoken]
    exact ht.symm

theorem binaryOp?_eq : binaryOp? (ahead (E ts)).token = binaryOp? (ahead ts).token := by
  rcases h.token with htoken | ⟨htoken, htoken'⟩
  · rw [htoken]
  · rw [htoken, htoken']
    rfl

end Meets

/-- Given enough nesting, the parser takes its result off the tokens, at least `taken` of them, and
leaves the others. Each token there is allows eight calls within one another, of which a parser
that is called deep inside others can do without `spare`. -/
structure Yields {α : Type} (q : Nat → Parse α) (taken spare : Nat) (ts us : List Token)
    (a : α) : Prop where
  shorter : us.length + taken ≤ ts.length
  run : ∀ m, 8 * ts.length + 8 ≤ m + spare → q m (ahead ts) = .ok (a, ahead us)

namespace Yields

variable {α β : Type} {q : Nat → Parse α} {k s : Nat} {ts us vs : List Token} {a : α}
  (h : Yields q k s ts us a)

include h

theorem mono {l r : Nat} (hk : l ≤ k) (hs : r ≤ s) : Yields q l r ts us a where
  shorter := Nat.le_trans (Nat.add_le_add_left hk _) h.shorter
  run m hm := h.run m (Nat.le_trans hm (Nat.add_le_add_left hs _))

theorem imp {q' : Nat → Parse α} (hq : ∀ m, q m (ahead ts) = .ok (a, ahead us) →
    q' m (ahead ts) = .ok (a, ahead us)) : Yields q' k s ts us a where
  shorter := h.shorter
  run m hm := hq m (h.run m hm)

theorem append (xs : List Token) (hxs : xs ≠ []) {q' : Nat → Parse α}
    (hq : ∀ m, q' m (ahead (xs ++ ts)) = q m (ahead ts)) :
    Yields q' (k + 1) (s + 8) (xs ++ ts) us a := by
  have hpos := List.length_pos_of_ne_nil hxs
  have hle := h.shorter
  constructor
  · rw [List.length_append]
    omega
  · intro m hm
    rw [List.length_append] at hm
    rw [hq, h.run m (by omega)]

theorem cons {t : Token} {q' : Nat → Parse α}
    (hq : ∀ m, q' m (ahead (t :: ts)) = q m (ahead ts)) :
    Yields q' (k + 1) (s + 8) (t :: ts) us a :=
  h.append [t] (List.cons_ne_nil t []) hq

theorem bind {g : α → Nat → Parse β} {k' s' : Nat} {b : β} (h' : Yields (g a) k' s' us vs b) :
    Yields (fun m => q m >>= fun a => g a m) (k + k') (min s (s' + 8 * k)) ts vs b where
  shorter := by
    have hle := h.shorter
    have hle' := h'.shorter
    omega
  run m hm := by
    have hle := h.shorter
    rw [run_bind_of_ok (h.run m (by omega)), h'.run m (by omega)]

end Yields

theorem Yields.succ {α : Type} {q : Nat → Parse α} {k s : Nat} {ts us : List Token} {a : α}
    (h : Yields (fun m => q (m + 1)) k (s + 1) ts us a) (hs : s < 8 + 8 * k) :
    Yields q k s ts us a where
  shorter := h.shorter
  run m hm := by
    have hle := h.shorter
    obtain ⟨n, rfl⟩ : ∃ n, m = n + 1 := ⟨m - 1, by omega⟩
    exact h.run n (by omega)

theorem yields_tokens {α : Type} {q : Nat → Parse α} {xs us : List Token} {a : α} {s : Nat}
    (hxs : xs ≠ []) (hs : s < 16)
    (hrun : ∀ m, q (m + 1) (ahead (xs ++ us)) = .ok (a, ahead us)) :
    Yields q 1 s (xs ++ us) us a := by
  have hpos := List.length_pos_of_ne_nil hxs
  constructor
  · rw [List.length_append]
    omega
  · intro m hm
    rw [List.length_append] at hm
    obtain ⟨n, rfl⟩ : ∃ n, m = n + 1 := ⟨m - 1, by omega⟩
    exact hrun n

section

variable {α : Type} (E : List Token → List Token)

/-- Where `p` reads a phrase, `q` reads its expansion, provided that `behind` holds of what
follows; then `before` holds from the phrase on. -/
def Simulates (before behind : List Token → Prop) (p : Parse α) (q : Nat → Parse α)
    (taken spare : Nat) : Prop :=
  ∀ ts a d, p (ahead ts) = .ok (a, d) → ∃ us, d = ahead us ∧
    (behind us → before ts ∧ Yields q taken spare (E ts) (E us) a)

/-- The phrase starts as it likes, as an operand does. -/
abbrev Carries : Parse α → (Nat → Parse α) → Nat → Nat → Prop :=
  Simulates E (fun _ => True) (Meets E)

abbrev Resumes : Parse α → (Nat → Parse α) → Nat → Nat → Prop :=
  Simulates E (Meets E) (Meets E)

end

namespace Simulates

variable {α β : Type} {E : List Token → List Token} {G H F : List Token → Prop} {p : Parse α}
  {q : Nat → Parse α} {k s : Nat}

theorem mono {l r : Nat} (hk : l ≤ k) (hs : r ≤ s) (h : Simulates E G F p q k s) :
    Simulates E G F p q l r := by
  intro ts a d hrun
  obtain ⟨us, hd, hus⟩ := h ts a d hrun
  exact ⟨us, hd, fun hF => (hus hF).imp_right (·.mono hk hs)⟩

theorem weaken (h : Simulates E G F p q k s) : Simulates E (fun _ => True) F p q k s := by
  intro ts a d hrun
  obtain ⟨us, hd, hus⟩ := h ts a d hrun
  exact ⟨us, hd, fun hF => ⟨trivial, (hus hF).2⟩⟩

theorem succ (hs : s < 8 + 8 * k) (h : Simulates E G F p (fun m => q (m + 1)) k (s + 1)) :
    Simulates E G F p q k s := by
  intro ts a d hrun
  obtain ⟨us, hd, hus⟩ := h ts a d hrun
  exact ⟨us, hd, fun hF => (hus hF).imp_right (·.succ hs)⟩

theorem andThen (hp : Simulates E G H p q k s) {f : α → Parse β} {g : α → Nat → Parse β}
    {k' s' : Nat} (hf : ∀ a, Simulates E H F (f a) (g a) k' s') :
    Simulates E G F (p >>= f) (fun m => q m >>= fun a => g a m) (k + k')
      (min s (s' + 8 * k)) := by
  intro ts b d hrun
  obtain ⟨a, c, hc, hd⟩ := run_bind_eq_ok.mp hrun
  obtain ⟨us, rfl, hus⟩ := hp ts a c hc
  obtain ⟨vs, rfl, hvs⟩ := hf a us b d hd
  refine ⟨vs, rfl, fun hF => ?_⟩
  obtain ⟨hH, hyields'⟩ := hvs hF
  obtain ⟨hG, hyields⟩ := hus hH
  exact ⟨hG, hyields.bind hyields'⟩

end Simulates

section

variable {α : Type} {E : List Token → List Token} {G F : List Token → Prop} {k s : Nat}

theorem simulates_return {p : Parse α} {a : α} (hp : ∀ ts, p (ahead ts) = .ok (a, ahead ts)) :
    Simulates E F F p (fun _ => p) 0 8 := by
  intro ts b d hrun
  rw [hp] at hrun
  cases hrun
  exact ⟨ts, rfl, fun hF => ⟨hF, Nat.le_refl _, fun m _ => hp _⟩⟩

theorem simulates_lastEnd {f : Nat → Parse α} {g : Nat → Nat → Parse α}
    (h : Simulates E G F (f 0) (g 0) k s) :
    Simulates E G F (lastEnd >>= f) (fun m => lastEnd >>= fun stop => g stop m) k s := by
  intro ts a d hrun
  obtain ⟨us, hd, hus⟩ := h ts a d hrun
  exact ⟨us, hd, fun hF => (hus hF).imp_right (·.imp fun _ => id)⟩

theorem simulates_returnEnd {f : Nat → α} : Simulates E F F (do return f (← lastEnd))
    (fun _ => do return f (← lastEnd)) 0 8 :=
  simulates_lastEnd (g := fun stop _ => pure (f stop)) (simulates_return fun _ => rfl)

theorem simulates_peek {m : Mark} (hm : m ≠ .semicolon ∧ m ≠ .rightParen) {p p' : Parse α}
    {q q' : Nat → Parse α} {k' s' : Nat} (h : Simulates E (Meets E) F p q k s)
    (h' : Simulates E (Meets E) F p' q' k' s') :
    Simulates E (Meets E) F (do if (← peek) = .mark m then p else p')
      (fun n => do if (← peek) = .mark m then q n else q' n) (min k k') (min s s') := by
  intro ts a d hrun
  rw [run_peek_bind] at hrun
  split at hrun
  case isTrue htoken =>
    obtain ⟨us, hd, hus⟩ := h ts a d hrun
    refine ⟨us, hd, fun hF => ?_⟩
    obtain ⟨hmeets, hyields⟩ := hus hF
    refine ⟨hmeets, (hyields.mono (Nat.min_le_left _ _) (Nat.min_le_left _ _)).imp ?_⟩
    intro n hn
    rw [run_peek_bind, if_pos (hmeets.eq htoken (by simp [hm])), hn]
  case isFalse htoken =>
    obtain ⟨us, hd, hus⟩ := h' ts a d hrun
    refine ⟨us, hd, fun hF => ?_⟩
    obtain ⟨hmeets, hyields⟩ := hus hF
    refine ⟨hmeets, (hyields.mono (Nat.min_le_right _ _) (Nat.min_le_right _ _)).imp ?_⟩
    intro n hn
    rw [run_peek_bind, if_neg (hmeets.ne htoken (by simp [hm])), hn]

theorem simulates_expect {t : Token} (hne : t ≠ .eof) (ht : ∀ ts, E (t :: ts) = t :: E ts)
    (hG : ∀ ts, G (t :: ts)) {what : String} {p : Parse α} {q : Nat → Parse α}
    {H : List Token → Prop} (h : Simulates E H F p q k s) :
    Simulates E G F (expect t what >>= fun _ => p) (fun m => expect t what >>= fun _ => q m)
      (k + 1) (s + 8) := by
  intro ts a d hrun
  obtain ⟨us, rfl, hf⟩ := expect_bind_eq_ok hne hrun
  obtain ⟨vs, hd, hvs⟩ := h us a d hf
  refine ⟨vs, hd, fun hF => ⟨hG us, ?_⟩⟩
  rw [ht]
  exact (hvs hF).2.cons fun m => run_expect_ahead t what _

theorem simulates_eat {t : Token} (ht : ∀ ts, E (t :: ts) = t :: E ts)
    (hne : t ≠ .eof ∧ t ≠ .mark .colon ∧ t ≠ .mark .rightParen) {p p' : Parse α}
    {q q' : Nat → Parse α} {H : List Token → Prop} {k' s' : Nat}
    (hpresent : Simulates E H F p q k s)
    (habsent : Simulates E (Meets E) F p' q' k' s') :
    Simulates E (Meets E) F (do if ← eat t then p else p')
      (fun m => do if ← eat t then q m else q' m) (min (k + 1) k') (min (s + 8) s') := by
  intro ts a d hrun
  rcases eat_bind_eq_ok hne.1 hrun with ⟨us, rfl, hp⟩ | ⟨htoken, hp⟩
  · obtain ⟨vs, hd, hvs⟩ := hpresent us a d hp
    refine ⟨vs, hd, fun hF => ⟨meets_cons (ht us) hne.2.1, ?_⟩⟩
    rw [ht]
    refine ((hvs hF).2.cons fun m => ?_).mono (Nat.min_le_left _ _) (Nat.min_le_left _ _)
    rw [run_eat_ahead, if_pos rfl]
  · obtain ⟨vs, hd, hvs⟩ := habsent ts a d hp
    refine ⟨vs, hd, fun hF => ?_⟩
    obtain ⟨hmeets, hyields⟩ := hvs hF
    refine ⟨hmeets, (hyields.mono (Nat.min_le_right _ _) (Nat.min_le_right _ _)).imp ?_⟩
    intro m hm
    rw [run_eat_other (hmeets.ne htoken hne.2.2), if_neg Bool.false_ne_true, hm]

end

section

variable {σ : Abbreviations} {E : List Token → List Token} (hE : Expands σ E)

include hE

theorem expands_number {xs : List Token} {x : Binary64} (hx : SignedNumber xs x)
    (ts : List Token) : E (xs ++ ts) = xs ++ E ts := by
  cases hx with
  | plain x => exact hE.plain rfl ts
  | negative x => exact (hE.plain rfl _).trans (congrArg _ (hE.plain rfl ts))

theorem expands_action (ref : ActionRef) (ts : List Token) :
    E (ref.tokens ++ ts) = ref.tokens ++ E ts := by
  have hrest (action category : String) : E (.string action :: .mark .less :: .string category ::
      .mark .greater :: ts) = .string action :: .mark .less :: .string category ::
        .mark .greater :: E ts := by
    rw [hE.plain rfl, hE.plain rfl, hE.plain rfl, hE.plain rfl]
  obtain ⟨action, category, _ | target⟩ := ref
  · exact (hE.plain rfl _).trans (congrArg _ (hrest action category))
  · exact (hE.target target _).trans (congrArg _ (congrArg _ (hrest action category)))

variable {α : Type} {G H F : List Token → Prop} {k s : Nat}

theorem simulates_mark {m : Mark} (hm : m ≠ .dot ∧ m ≠ .semicolon ∧ m ≠ .colon) {what : String}
    {p : Parse α} {q : Nat → Parse α} (h : Simulates E H F p q k s) :
    Simulates E (Meets E) F (expectMark m what >>= fun _ => p)
      (fun n => expectMark m what >>= fun _ => q n) (k + 1) (s + 8) := by
  have hplain : (Token.mark m).plain := by simp [Token.plain, hm]
  exact simulates_expect (by simp) (hE.plain hplain)
    (fun ts => meets_cons (hE.plain hplain ts) (by simp [hm])) h

theorem Simulates.head {p : Parse α} {q q' : Nat → Parse α} {t : Token} (ht : t.plain)
    (h : Simulates E G F p q k s) {ts : List Token}
    (hq : ∀ m b, q m (ahead (E ts)) = .ok b → q' (m + 1) (ahead (t :: E ts)) = .ok b) {a : α}
    {d : Cursor} (hrun : p (ahead ts) = .ok (a, d)) {r : Nat} (hs : r < s + 8)
    (hr : r < 16) :
    ∃ us, d = ahead us ∧ (F us → True ∧ Yields q' 1 r (E (t :: ts)) (E us) a) := by
  obtain ⟨us, hd, hus⟩ := h ts a d hrun
  refine ⟨us, hd, fun hF => ⟨trivial, ?_⟩⟩
  obtain ⟨-, hle, hyields⟩ := hus hF
  rw [hE.plain ht]
  refine ⟨?_, fun m hm => ?_⟩
  · rw [List.length_cons]
    omega
  · rw [List.length_cons] at hm
    obtain ⟨n, rfl⟩ : ∃ n, m = n + 1 := ⟨m - 1, by omega⟩
    exact hq n _ (hyields n (by omega))

end

section

variable {α : Type} {p : Parse α} {rest : Parse (List α)} {close : Mark} {what : String}

def separated (p : Parse α) (close : Mark) (what : String) (rest : Parse (List α)) :
    Parse (List α) := do
  let a ← p
  if (← peek) = .mark close then return [a]
  else
    let _ ← expectMark .comma what
    let as ← rest
    return a :: as

def orNone (p : Parse (List α)) (close : Mark) : Parse (List α) := do
  if (← peek) = .mark close then return []
  else p

theorem orNone_bind {β : Type} (f : List α → Parse β) :
    orNone rest close >>= f = (do if (← peek) = .mark close then f [] else rest >>= f) := by
  rw [orNone, bind_assoc]
  refine bind_congr fun t => ?_
  split <;> rfl

variable {σ : Abbreviations} {E : List Token → List Token} (hE : Expands σ E)
  {q : Nat → Parse α} {rest' : Nat → Parse (List α)}

include hE

theorem carries_separated
    (hclose : close ≠ .dot ∧ close ≠ .semicolon ∧ close ≠ .colon ∧ close ≠ .comma)
    (hp : Carries E p q 1 8) (hrest : Carries E rest rest' 0 7) :
    Carries E (separated p close what rest)
      (fun m => separated (q m) close what (rest' m)) 1 8 := by
  refine (hp.andThen fun a => ?_ : Simulates E _ _ _ _ (1 + 0) (min 8 (8 + 8 * 1)))
  intro ts as d hrun
  rw [run_peek_bind] at hrun
  split at hrun
  case isTrue htoken =>
    cases hrun
    refine ⟨ts, rfl, fun hmeets => ⟨hmeets, Nat.le_refl _, fun m _ => ?_⟩⟩
    rw [run_peek_bind, if_pos (hmeets.eq htoken (by simp [hclose]))]
    rfl
  case isFalse =>
    obtain ⟨us, hd, hus⟩ := simulates_mark hE (by simp)
      (hrest.andThen fun as => simulates_return fun _ => rfl) ts as d hrun
    refine ⟨us, hd, fun hmeets => (hus hmeets).imp_right fun hyields => ?_⟩
    refine (hyields.mono (by omega) (by omega)).imp fun m hm => ?_
    obtain ⟨vs, hvs, -⟩ := expectMark_bind_eq_ok hm
    rw [run_peek_bind, hvs, if_neg (by simp [hclose.2.2.2.symm]), ← hvs, hm]

omit hE

theorem carries_orNone (hclose : close ≠ .semicolon) {k s : Nat}
    (hrest : Carries E rest rest' k s)
    (hopen : ∀ {m : Nat} {ts : List Token} {r : List α × Cursor},
      rest' m (ahead ts) = .ok r → (ahead ts).token ≠ .mark close) :
    Carries E (orNone rest close) (fun m => orNone (rest' m) close) 0 s := by
  intro ts as d hrun
  rw [orNone, run_peek_bind] at hrun
  split at hrun
  case isTrue htoken =>
    cases hrun
    refine ⟨ts, rfl, fun hmeets => ⟨trivial, Nat.le_refl _, fun m _ => ?_⟩⟩
    rw [orNone, run_peek_bind, if_pos (hmeets.eq htoken (by simp [hclose]))]
    rfl
  case isFalse =>
    obtain ⟨us, hd, hus⟩ := hrest ts as d hrun
    refine ⟨us, hd, fun hmeets => (hus hmeets).imp_right fun hyields => ?_⟩
    refine (hyields.mono (Nat.zero_le k) (Nat.le_refl s)).imp fun m hm => ?_
    rw [orNone, run_peek_bind, if_neg (hopen hm), hm]

end

end Parser

end DiamondScript
