import DiamondScript.Proofs.Activations
import DiamondScript.Proofs.Sentence

namespace DiamondScript

namespace Cursor

/-- The second place is behind the first one, with tokens up to the end of file in front of it. -/
structure Before (c d : Cursor) : Prop where
  closed : d.Closed
  fewer : d.rest.length < c.rest.length

structure UpTo (c d : Cursor) : Prop where
  closed : d.Closed
  fewer : d.rest.length ≤ c.rest.length

variable {c d e : Cursor}

theorem Closed.upTo (h : c.Closed) : c.UpTo c := ⟨h, Nat.le_refl _⟩

theorem Before.upTo (h : c.Before d) : c.UpTo d := ⟨h.closed, Nat.le_of_lt h.fewer⟩

theorem Before.trans (h : c.Before d) (h' : d.UpTo e) : c.Before e :=
  ⟨h'.closed, Nat.lt_of_le_of_lt h'.fewer h.fewer⟩

theorem UpTo.before (h : c.UpTo d) (h' : d.Before e) : c.Before e :=
  ⟨h'.closed, Nat.lt_of_lt_of_le h'.fewer h.fewer⟩

theorem Took.before {ts : List Token} (h : c.Took ts d) (hts : ts ≠ []) : c.Before d := by
  have hpos := List.length_pos_of_ne_nil hts
  have hlength := congrArg List.length h.tokens_eq
  rw [List.length_append, tokens, tokens, List.length_map, List.length_map] at hlength
  exact ⟨h.closed, by omega⟩

theorem UpTo.advance (h : c.UpTo d) (hne : d.token ≠ .eof) : c.Before d.advance :=
  h.before ((h.closed.advance rfl hne).before (List.cons_ne_nil _ _))

end Cursor

namespace Parser

/-- The order in which routines call each other at one place, the caller above the callee. -/
def Routine.level : Routine → Nat
  | .type | .primary | .operators | .indices | .args | .entries => 0
  | .typeParams | .operand => 1
  | .binary => 2
  | .expr => 3
  | .argsRest | .items | .params | .body | .definitions => 4

/-- What a call uses of the bound on nesting. -/
def rank (routine : Routine) (c : Cursor) : Nat := 8 * c.rest.length + routine.level

def Activation.rank (a : Activation) : Nat := 8 * a.left + a.routine.level

def Descends (running : List Activation) : Prop :=
  running.Pairwise fun inner outer => inner.rank < outer.rank

/-- Calls up to a rank can be made inside of the running ones, and the bound on nesting allows
them. -/
structure Room (n : Nat) (running : List Activation) (k : Nat) : Prop where
  descends : Descends running
  below : ∀ a ∈ running, k < a.rank
  bound : k ≤ n

section

variable {n k : Nat} {running : List Activation} {r g : Routine} {c d : Cursor}

theorem Routine.level_lt (r : Routine) : r.level < 8 := by
  cases r <;> decide

theorem rank_lt_of_before (h : c.Before d) : rank g d < rank r c := by
  have hlevel := g.level_lt
  have hfewer := h.fewer
  simp only [rank]
  omega

theorem Room.mono {j : Nat} (h : Room n running k) (hle : j ≤ k) : Room n running j :=
  ⟨h.descends, fun a ha => Nat.lt_of_le_of_lt hle (h.below a ha), Nat.le_trans hle h.bound⟩

theorem Room.further (h : Room n running (rank r c)) (hd : c.Before d) :
    Room n running (rank g d) :=
  h.mono (Nat.le_of_lt (rank_lt_of_before hd))

theorem Room.not_zero (hc : c.Closed) : ¬ Room 0 running (rank r c) := by
  intro h
  obtain ⟨lastEnd, _ | ⟨l, rest⟩⟩ := c
  · cases hc
  · exact absurd h.bound (by simp only [rank, List.length_cons]; omega)

def Inside (n : Nat) (running : List Activation) (r : Routine) (c : Cursor) : Prop :=
  ∀ k < rank r c, Room n (⟨r, c.rest.length⟩ :: running) k

theorem Room.inside (h : Room (n + 1) running (rank r c)) : Inside n running r c := by
  intro k hk
  refine ⟨List.pairwise_cons.mpr ⟨h.below, h.descends⟩, ?_, ?_⟩
  · exact List.forall_mem_cons.mpr ⟨hk, fun a ha => Nat.lt_trans hk (h.below a ha)⟩
  · exact Nat.le_of_lt_succ (Nat.lt_of_lt_of_le hk h.bound)

theorem Inside.further (h : Inside n running r c) (hd : c.Before d) :
    Room n (⟨r, c.rest.length⟩ :: running) (rank g d) :=
  h _ (rank_lt_of_before hd)

theorem Inside.here (h : Inside n running r c) (hlevel : g.level < r.level) :
    Room n (⟨r, c.rest.length⟩ :: running) (rank g c) :=
  h _ (Nat.add_lt_add_left hlevel _)

end

section

variable {α β : Type}

/-- The parser goes on to a result as described or fails without having used up its bound. -/
structure Runs (p : Parse α) (c : Cursor) (Q : α → Cursor → Prop) : Prop where
  gives : ∀ a d, p c = .ok (a, d) → Q a d
  answers : ∀ e, p c = .error e → e.fault ≠ .exhausted

/-- A parser and its traced form have the same outcome, as described, and the ranks of the calls
that run at one time descend. -/
structure Mirrors (t : Traced α) (p : Parse α) (running : List Activation) (c : Cursor)
    (Q : α → Cursor → Prop) : Prop where
  outcome : (t running c).1 = p c
  runs : Runs p c Q
  descends : ∀ calls ∈ (t running c).2, Descends calls

variable {t : Traced α} {p : Parse α} {f : α → Traced β} {g : α → Parse β}
  {running : List Activation} {c : Cursor} {Q : α → Cursor → Prop} {R : β → Cursor → Prop}

theorem Runs.bind (h : Runs p c Q) (hg : ∀ a d, Q a d → Runs (g a) d R) :
    Runs (p >>= g) c R := by
  have hrun : (p >>= g) c = (p c >>= fun r => g r.1 r.2) := rfl
  cases hp : p c with
  | error e =>
      rw [hp] at hrun
      refine ⟨fun b d hb => ?_, fun e' he => ?_⟩
      · cases hrun.symm.trans hb
      · cases hrun.symm.trans he
        exact h.answers e hp
  | ok r =>
      rw [hp] at hrun
      have hrest := hg r.1 r.2 (h.gives r.1 r.2 hp)
      exact ⟨fun b d hb => hrest.gives b d (hrun.symm.trans hb),
        fun e he => hrest.answers e (hrun.symm.trans he)⟩

theorem runs_pure {a : α} (h : Q a c) : Runs (pure a) c Q := by
  refine ⟨?_, nofun⟩
  rintro _ _ ⟨⟩
  exact h

theorem runs_failAt {fault : ParseFault} (h : fault ≠ .exhausted) (span : Span) :
    Runs (failAt fault span) c Q := by
  refine ⟨nofun, ?_⟩
  rintro _ ⟨⟩
  exact h

theorem runs_failHere (what : String) : Runs (failHere what) c Q := by
  refine ⟨nofun, ?_⟩
  rintro _ ⟨⟩
  exact ParseFault.noConfusion

theorem runs_get_bind {g : Cursor → Parse β} (h : Runs (g c) c R) : Runs (get >>= g) c R :=
  ⟨h.gives, h.answers⟩

theorem runs_peek_bind {g : Token → Parse β} (h : Runs (g c.token) c R) : Runs (peek >>= g) c R :=
  ⟨h.gives, h.answers⟩

theorem runs_lastEnd_bind {g : Nat → Parse β} (h : Runs (g c.lastEnd) c R) :
    Runs (lastEnd >>= g) c R :=
  ⟨h.gives, h.answers⟩

theorem runs_advance_bind {g : Unit → Parse β} (h : Runs (g ()) c.advance R) :
    Runs (advance >>= g) c R :=
  ⟨h.gives, h.answers⟩

theorem Mirrors.bind (h : Mirrors t p running c Q)
    (hf : ∀ a d, Q a d → Mirrors (f a) (g a) running d R) :
    Mirrors (t >>= f) (p >>= g) running c R := by
  have hrun : (p >>= g) c = (p c >>= fun r => g r.1 r.2) := rfl
  obtain ⟨houtcome, hruns, hdescends⟩ := h
  have hnext := hruns.bind fun a d hQ => (hf a d hQ).runs
  rcases ht : t running c with ⟨_ | ⟨a, d⟩, calls⟩
  all_goals rw [ht] at houtcome hdescends
  · refine ⟨?_, hnext, ?_⟩ <;> rw [Traced.bind_of_error ht]
    · rw [hrun, ← houtcome]
      rfl
    · exact hdescends
  · have hrest := hf a d (hruns.gives a d houtcome.symm)
    refine ⟨?_, hnext, ?_⟩ <;> rw [Traced.bind_of_ok ht]
    · rw [hrun, ← houtcome]
      exact hrest.outcome
    · exact List.forall_mem_append.mpr ⟨hdescends, hrest.descends⟩

theorem Runs.mirrors (h : Runs p c Q) : Mirrors (liftM p) p running c Q :=
  ⟨rfl, h, List.forall_mem_nil _⟩

theorem Runs.andThen (h : Runs p c Q) (hf : ∀ a d, Q a d → Mirrors (f a) (g a) running d R) :
    Mirrors (liftM p >>= f) (p >>= g) running c R :=
  h.mirrors.bind hf

theorem mirrors_pure {a : α} (h : Q a c) : Mirrors (pure a) (pure a) running c Q :=
  ⟨rfl, runs_pure h, List.forall_mem_nil _⟩

theorem Mirrors.ite {b : Prop} [Decidable b] {t' : Traced α} {p' : Parse α}
    (h : b → Mirrors t p running c Q) (h' : ¬b → Mirrors t' p' running c Q) :
    Mirrors (if b then t else t') (if b then p else p') running c Q := by
  split
  case isTrue hb => exact h hb
  case isFalse hb => exact h' hb

theorem Mirrors.mono {Q' : α → Cursor → Prop} (h : Mirrors t p running c Q)
    (hQ : ∀ a d, Q a d → Q' a d) : Mirrors t p running c Q' :=
  ⟨h.outcome, ⟨fun a d ha => hQ a d (h.runs.gives a d ha), h.runs.answers⟩, h.descends⟩

/-- A part that may take nothing, behind one that takes something. -/
theorem Runs.loop {b : Cursor} (h : b.Before c) (hp : Runs p c fun _ d => c.UpTo d) :
    Runs p c fun _ d => b.Before d :=
  ⟨fun a d ha => h.trans (hp.gives a d ha), hp.answers⟩

theorem Mirrors.after {b : Cursor} (h : b.UpTo c)
    (ht : Mirrors t p running c fun _ d => c.Before d) :
    Mirrors t p running c fun _ d => b.Before d :=
  ht.mono fun _ _ hd => h.before hd

theorem Mirrors.loop {b : Cursor} (h : b.Before c)
    (ht : Mirrors t p running c fun _ d => c.UpTo d) :
    Mirrors t p running c fun _ d => b.Before d :=
  ⟨ht.outcome, ht.runs.loop h, ht.descends⟩

theorem Room.enter {n : Nat} {r : Routine} (room : Room (n + 1) running (rank r c))
    (h : Inside n running r c → Mirrors t p (⟨r, c.rest.length⟩ :: running) c Q) :
    Mirrors (.enter r t) p running c Q := by
  obtain ⟨houtcome, hruns, hdescends⟩ := h room.inside
  exact ⟨houtcome, hruns, List.forall_mem_cons.mpr
    ⟨List.pairwise_cons.mpr ⟨room.below, room.descends⟩, hdescends⟩⟩

theorem mirrors_pure_bind {a : α} (h : Mirrors (f a) (g a) running c R) :
    Mirrors (pure a >>= f) (pure a >>= g) running c R := by
  refine (mirrors_pure (Q := fun a' d => a' = a ∧ d = c) ⟨rfl, rfl⟩).bind ?_
  rintro _ _ ⟨rfl, rfl⟩
  exact h

theorem mirrors_of_run {a : α} {d : Cursor} (hp : p c = .ok (a, d))
    (h : Mirrors (f a) (g a) running d R) : Mirrors (liftM p >>= f) (p >>= g) running c R := by
  have hruns : Runs p c fun a' d' => a' = a ∧ d' = d := by
    refine ⟨fun a' d' h' => ?_, fun e he => ?_⟩
    · cases hp.symm.trans h'
      exact ⟨rfl, rfl⟩
    · cases hp.symm.trans he
  refine hruns.andThen ?_
  rintro _ _ ⟨rfl, rfl⟩
  exact h

theorem mirrors_cursor_bind {f : Cursor → Traced β} {g : Cursor → Parse β}
    (h : Mirrors (f c) (g c) running c R) : Mirrors (Traced.cursor >>= f) (get >>= g) running c R :=
  mirrors_of_run (p := get) rfl h

theorem mirrors_peek_bind {f : Token → Traced β} {g : Token → Parse β}
    (h : Mirrors (f c.token) (g c.token) running c R) :
    Mirrors (liftM peek >>= f) (peek >>= g) running c R :=
  mirrors_of_run rfl h

theorem mirrors_spanHere_bind {f : Span → Traced β} {g : Span → Parse β}
    (h : Mirrors (f c.span) (g c.span) running c R) :
    Mirrors (liftM spanHere >>= f) (spanHere >>= g) running c R :=
  mirrors_of_run rfl h

theorem mirrors_lastEnd_bind {f : Nat → Traced β} {g : Nat → Parse β}
    (h : Mirrors (f c.lastEnd) (g c.lastEnd) running c R) :
    Mirrors (liftM lastEnd >>= f) (lastEnd >>= g) running c R :=
  mirrors_of_run rfl h

theorem mirrors_advance_bind {f : Unit → Traced β} {g : Unit → Parse β}
    (h : Mirrors (f ()) (g ()) running c.advance R) :
    Mirrors (liftM advance >>= f) (advance >>= g) running c R :=
  mirrors_of_run rfl h

theorem mirrors_eat_bind {token : Token} {f : Bool → Traced β} {g : Bool → Parse β}
    (htrue : c.token = token → Mirrors (f true) (g true) running c.advance R)
    (hfalse : Mirrors (f false) (g false) running c R) :
    Mirrors (liftM (eat token) >>= f) (eat token >>= g) running c R := by
  by_cases htoken : c.token = token
  · exact mirrors_of_run (by rw [eat, run_peek_bind, if_pos htoken]; rfl) (htrue htoken)
  · exact mirrors_of_run (by rw [eat, run_peek_bind, if_neg htoken]; rfl) hfalse

end

section

variable {b c : Cursor} (h : b.UpTo c)

include h

theorem runs_eat {t : Token} (ht : t ≠ .eof) : Runs (eat t) c fun _ d => b.UpTo d := by
  refine runs_peek_bind ?_
  split
  case isTrue htoken => exact runs_advance_bind (runs_pure (h.advance (htoken ▸ ht)).upTo)
  case isFalse => exact runs_pure h

theorem runs_expect {t : Token} (ht : t ≠ .eof) (what : String) :
    Runs (expect t what) c fun _ d => b.Before d := by
  refine runs_get_bind ?_
  split
  case isTrue htoken => exact runs_advance_bind (runs_pure (h.advance (htoken ▸ ht)))
  case isFalse => exact runs_failHere what

theorem runs_expectMark (m : Mark) (what : String) :
    Runs (expectMark m what) c fun _ d => b.Before d :=
  runs_expect h Token.noConfusion what

theorem runs_expectKeyword (word : Keyword) (what : String) :
    Runs (expect (.keyword word) what) c fun _ d => b.Before d :=
  runs_expect h Token.noConfusion what

theorem runs_expectIdent (what : String) :
    Runs (expectIdent what) c fun _ d => b.Before d := by
  refine runs_get_bind ?_
  cases htoken : c.token with
  | ident name => exact runs_advance_bind (runs_pure (h.advance (by simp [htoken])))
  | _ => exact runs_failHere what

theorem runs_expectString (what : String) :
    Runs (expectString what) c fun _ d => b.Before d := by
  refine runs_peek_bind ?_
  cases htoken : c.token with
  | string s => exact runs_advance_bind (runs_pure (h.advance (by simp [htoken])))
  | _ => exact runs_failHere what

theorem runs_expectVarName : Runs expectVarName c fun _ d => b.Before d := by
  refine runs_peek_bind ?_
  cases htoken : c.token with
  | ident | varName => exact runs_advance_bind (runs_pure (h.advance (by simp [htoken])))
  | _ => exact runs_failHere _

theorem runs_takeTarget : Runs takeTarget c fun _ d => b.UpTo d := by
  refine runs_peek_bind ?_
  cases htoken : c.token with
  | target t => exact runs_advance_bind (runs_pure (h.advance (by simp [htoken])).upTo)
  | _ => exact runs_pure h

theorem runs_takeString : Runs takeString c fun _ d => b.UpTo d := by
  refine runs_peek_bind ?_
  cases htoken : c.token with
  | string s => exact runs_advance_bind (runs_pure (h.advance (by simp [htoken])).upTo)
  | _ => exact runs_pure h

theorem runs_expectSignedNumber (what : String) :
    Runs (expectSignedNumber what) c fun _ d => b.Before d := by
  refine (runs_eat h Token.noConfusion).bind fun negative d hd => runs_peek_bind ?_
  cases htoken : d.token with
  | number x => exact runs_advance_bind (runs_pure (hd.advance (by simp [htoken])))
  | _ => exact runs_failHere what

theorem runs_parseActionRef : Runs parseActionRef c fun _ d => b.Before d := by
  refine (runs_takeTarget h).bind fun target c₁ h₁ => ?_
  refine (runs_expectKeyword h₁ _ _).bind fun _ c₂ h₂ => ?_
  refine (runs_expectString h₂.upTo _).bind fun action c₃ h₃ => ?_
  refine (runs_expectMark h₃.upTo _ _).bind fun _ c₄ h₄ => ?_
  refine (runs_expectString h₄.upTo _).bind fun category c₅ h₅ => ?_
  exact (runs_expectMark h₅.upTo _ _).bind fun _ c₆ h₆ => runs_pure h₆

theorem runs_parseVector (htoken : c.token = .mark .less) (start : Span) :
    Runs (parseVector start) c fun _ d => b.Before d := by
  have h₁ := h.advance (by simp [htoken])
  refine runs_advance_bind ((runs_expectSignedNumber h₁.upTo _).bind fun x c₂ h₂ => ?_)
  refine (runs_expectMark h₂.upTo _ _).bind fun _ c₃ h₃ => ?_
  refine (runs_expectSignedNumber h₃.upTo _).bind fun y c₄ h₄ => ?_
  refine (runs_expectMark h₄.upTo _ _).bind fun _ c₅ h₅ => ?_
  refine (runs_expectSignedNumber h₅.upTo _).bind fun z c₆ h₆ => ?_
  exact (runs_expectMark h₆.upTo _ _).bind fun _ c₇ h₇ => runs_lastEnd_bind (runs_pure h₇)

theorem runs_parseTargeted (constants : Constants) (start : Span) {target : Target}
    (htoken : c.token = .target target) :
    Runs (parseTargeted constants start target) c fun _ d => b.Before d := by
  have h₁ := h.advance (by simp [htoken])
  have hfail : Runs
      (do
        advance
        failHere "codeblock after target") c fun (_ : Operand) d => b.Before d :=
    runs_advance_bind (runs_failHere _)
  refine runs_get_bind ?_
  cases hnext : c.following with
  | keyword word =>
      cases word with
      | codeblock =>
          exact (runs_parseActionRef h).bind fun ref d hd => runs_lastEnd_bind (runs_pure hd)
      | _ => exact hfail
  | ident name | varName name =>
      dsimp only
      split
      · have h₂ := h₁.upTo.advance (by simp [(h.closed.advance_eq (by simp [htoken])).2, hnext])
        exact runs_advance_bind (runs_advance_bind (runs_lastEnd_bind (runs_pure h₂)))
      · exact hfail
  | _ => exact hfail

theorem runs_assignTo (left value : Expr) (equals : Span) :
    Runs (assignTo left value equals) c fun _ d => b.UpTo d := by
  cases left with
  | «variable» | index => exact runs_pure h
  | _ => exact runs_failAt ParseFault.noConfusion _

end

end Parser
end DiamondScript
