import DiamondScript.Proofs.Operands
import DiamondScript.Proofs.Sentence
import DiamondScript.Proofs.Spacing
import DiamondScript.Proofs.Typing

namespace DiamondScript

namespace ValueType

mutual

theorem written_eq : ∀ T : ValueType, T.entryFree → T.written = T
  | .declared base params, h => by
      rw [entryFree] at h
      rw [written, writtenAll_eq params h]
  | .literal .., h => by
      simp [entryFree] at h

theorem writtenAll_eq : ∀ params : List ValueType, entryFreeAll params →
    writtenAll params = params
  | [], _ => rfl
  | T :: rest, h => by
      rw [entryFreeAll, Bool.and_eq_true] at h
      rw [writtenAll, written_eq T h.1, writtenAll_eq rest h.2]

end

end ValueType

namespace Lexer

def SplitsInto (cs : List Char) (ts : List Token) : Prop :=
  ∀ n pos, cs.length < n → ∃ lexemes,
    scanAll n pos cs = .ok lexemes ∧ lexemes.map Lexeme.token = ts ++ [.eof]

def EndsWord (cs : List Char) : Prop := ∀ c ∈ cs.head?, isWordChar c = false

variable {cs text : List Char} {ts : List Token} {c : Char} {t : Token}

theorem EndsWord.cons (hc : isWordChar c = false) : EndsWord (c :: cs) := by
  rintro _ ⟨⟩
  exact hc

theorem splitsInto_nil : SplitsInto [] [] := by
  intro n pos hn
  obtain _ | n := n
  · cases hn
  · exact ⟨_, rfl, rfl⟩

theorem SplitsInto.blank (h : SplitsInto cs ts) (hc : isBlank c) : SplitsInto (c :: cs) ts := by
  intro n pos hn
  obtain _ | n := n
  · cases hn
  have hlen : cs.length < n + 1 := Nat.lt_of_succ_lt hn
  have hskip : skipLayout false pos (c :: cs) = skipLayout false (pos + 1) cs := by
    rw [skipLayout, if_pos hc]
  rw [scanAll, hskip]
  exact h (n + 1) (pos + 1) hlen

theorem SplitsInto.token (h : SplitsInto cs ts) (hc : isBlank c = false) (hslash : c ≠ '/')
    (hscan : ∀ pos, scanToken pos c (text ++ cs) = emit pos t (c :: text) cs) :
    SplitsInto (c :: (text ++ cs)) (t :: ts) := by
  intro n pos hn
  obtain _ | n := n
  · cases hn
  have hskip : skipLayout false pos (c :: (text ++ cs)) = (pos, c :: (text ++ cs)) := by
    rw [skipLayout, if_neg (by simp [hc]), if_neg fun hs => hslash hs.1]
  have hlen : cs.length < n := by
    rw [List.length_cons, List.length_append] at hn
    omega
  obtain ⟨lexemes, hok, htokens⟩ := h n (pos + width (c :: text)) hlen
  refine ⟨⟨t, ⟨pos, pos + width (c :: text)⟩⟩ :: lexemes, ?_, ?_⟩
  · rw [scanAll, hskip]
    apply bind_eq_ok.mpr
    exact ⟨_, hscan pos, bind_eq_ok.mpr ⟨lexemes, hok, rfl⟩⟩
  · rw [List.map_cons, htokens, List.cons_append]

theorem SplitsInto.mark {m : Mark} (h : SplitsInto cs ts) (hc : isBlank c = false)
    (hslash : c ≠ '/') (hscan : ∀ pos, scanToken pos c cs = emit pos (.mark m) [c] cs) :
    SplitsInto (c :: cs) (.mark m :: ts) := by
  have hnone : ∀ pos, scanToken pos c ([] ++ cs) = emit pos (.mark m) [c] cs := hscan
  exact h.token hc hslash hnone

theorem SplitsInto.less (h : SplitsInto cs ts) : SplitsInto ('<' :: cs) (.mark .less :: ts) :=
  h.mark rfl (by decide) fun _ => rfl

theorem SplitsInto.greater (h : SplitsInto cs ts) :
    SplitsInto ('>' :: cs) (.mark .greater :: ts) :=
  h.mark rfl (by decide) fun _ => rfl

theorem SplitsInto.comma (h : SplitsInto cs ts) : SplitsInto (',' :: cs) (.mark .comma :: ts) :=
  h.mark rfl (by decide) fun _ => rfl

theorem scanToken_word (hc : isWordStart c) (pos : Nat) (rest : List Char) :
    scanToken pos c rest = scanWord pos (c :: rest) := by
  have hne (d : Char) (hd : isWordStart d = false) : c ≠ d := by
    rintro rfl
    rw [hc] at hd
    cases hd
  have hdigit : ¬ c.isDigit = true := by
    intro hd
    rw [isWordStart, Bool.or_eq_true, decide_eq_true_eq] at hc
    rcases hc with halpha | rfl
    · delta Char.isAlpha Char.isUpper Char.isLower Char.isDigit at halpha hd
      grind
    · cases hd
  unfold scanToken
  rw [if_neg (hne _ rfl), if_neg (hne _ rfl), if_neg (hne _ rfl), if_neg (hne _ rfl),
    if_neg hdigit, if_pos hc]

theorem SplitsInto.word (h : SplitsInto cs ts) (hcs : EndsWord cs) (hc : isWordStart c)
    (hword : ∀ d ∈ c :: text, isWordChar d) :
    SplitsInto (c :: (text ++ cs)) (wordToken (String.ofList (c :: text)) :: ts) := by
  have hblank : isBlank c = false := by
    by_contra hb
    rw [Bool.not_eq_false, isBlank_iff] at hb
    rcases hb with rfl | rfl | rfl | rfl <;> cases hc
  apply h.token hblank
  · rintro rfl
    cases hc
  · intro pos
    obtain ⟨htake, hdrop⟩ := span_append hword hcs
    rw [List.cons_append] at htake hdrop
    rw [scanToken_word hc, scanWord, htake, hdrop]

theorem SplitsInto.type (h : SplitsInto cs ts) (hcs : EndsWord cs) (base : BaseType) :
    SplitsInto (base.keyword.toList ++ cs) (.type base :: ts) := by
  obtain ⟨c, text, hsplit, hc, hword, htoken⟩ : ∃ c text, base.keyword.toList = c :: text ∧
      isWordStart c ∧ (∀ d ∈ c :: text, isWordChar d) ∧
        wordToken (String.ofList (c :: text)) = .type base := by
    cases base <;> exact ⟨_, _, rfl, by decide, List.all_eq_true.mp rfl, by decide⟩
  rw [hsplit, ← htoken]
  exact h.word hcs hc hword

end Lexer

namespace ValueType

open Lexer

def listing : List ValueType → String
  | [] => ""
  | p :: ps => display p ++ displayRest ps

theorem listing_cons_cons (p q : ValueType) (ps : List ValueType) :
    listing (p :: q :: ps) = p.display ++ (", " ++ listing (q :: ps)) := by
  rw [listing, listing, displayRest, String.append_assoc]

theorem displayParams_cons (p : ValueType) (ps : List ValueType) :
    displayParams (p :: ps) = "<" ++ (listing (p :: ps) ++ ">") := by
  rw [listing, displayParams]
  simp only [String.append_assoc]

variable {cs : List Char} {ts : List Token}

theorem splitsInto_applied (base : BaseType) (hcs : EndsWord cs) (h : SplitsInto cs ts) :
    ∀ {params : List ValueType}, (params ≠ [] →
      SplitsInto ((listing params).toList ++ '>' :: cs)
        (listTokens params ++ .mark .greater :: ts)) →
    SplitsInto ((base.keyword ++ displayParams params).toList ++ cs)
      (.type base :: (applied params (listTokens params) ++ ts))
  | [], _ => by
      rw [displayParams, String.append_empty]
      exact h.type hcs base
  | p :: ps, hparams => by
      have hinner := (hparams (List.cons_ne_nil p ps)).less
      have hall := hinner.type (EndsWord.cons rfl) base
      simpa [displayParams_cons, applied] using hall

mutual

theorem splitsInto_display : ∀ (T : ValueType) {cs : List Char} {ts : List Token},
    EndsWord cs → SplitsInto cs ts → SplitsInto (T.display.toList ++ cs) (T.tokens ++ ts)
  | .declared base params, _, _, hcs, h | .literal base params _, _, _, hcs, h =>
      splitsInto_applied base hcs h (splitsInto_listing params (EndsWord.cons rfl) h.greater)

theorem splitsInto_listing : ∀ (types : List ValueType) {cs : List Char} {ts : List Token},
    EndsWord cs → SplitsInto cs ts → types ≠ [] →
      SplitsInto ((listing types).toList ++ cs) (listTokens types ++ ts)
  | [T], _, _, hcs, h, _ => by
      rw [listing, displayRest, String.append_empty]
      exact splitsInto_display T hcs h
  | T :: U :: rest, _, _, hcs, h, _ => by
      have hrest := splitsInto_listing (U :: rest) hcs h (List.cons_ne_nil U rest)
      have hcomma := (hrest.blank (c := ' ') rfl).comma
      have hall := splitsInto_display T (EndsWord.cons rfl) hcomma
      simpa [listing_cons_cons, listTokens] using hall

end

theorem lex_display (T : ValueType) : ∃ lexemes,
    lex T.display = .ok lexemes ∧ lexemes.map Lexeme.token = T.tokens ++ [.eof] := by
  have hends : EndsWord [] := fun _ hc => nomatch hc
  have h := splitsInto_display T hends splitsInto_nil
  rw [List.append_nil, List.append_nil] at h
  exact h _ 0 (Nat.lt_succ_self _)

end ValueType

namespace Cursor

theorem bare_eq_ahead {lexemes : List Lexeme} {ts : List Token}
    (h : lexemes.map Lexeme.token = ts ++ [.eof]) : (Cursor.mk 0 lexemes).bare = ahead ts := by
  rw [bare, ahead, ← h, List.map_map]
  rfl

theorem tokens_bare (c : Cursor) : c.bare.tokens = c.tokens := by
  rw [tokens, bare, List.map_map]
  rfl

end Cursor

namespace Parser

open Cursor (ahead)

variable {T U : ValueType} {lexemes : List Lexeme}

/-- A type that is written on its own is read to the end, and without its entries. -/
theorem parseType_tokens (h : lexemes.map Lexeme.token = T.tokens ++ [.eof]) {n : Nat}
    (hn : bound lexemes ≤ n) :
    ∃ d, parseType n ⟨0, lexemes⟩ = .ok (T.written, d) ∧ d.tokens = [.eof] := by
  have hlen : T.tokens.length + 1 = lexemes.length := by
    rw [← List.length_map Lexeme.token, h, List.length_append, List.length_singleton]
  have hbudget : 2 * T.tokens.length ≤ n := by
    rw [bound] at hn
    omega
  have hnone : (ahead []).token ≠ .mark .less := by decide
  have hahead := parseType_ahead T hbudget hnone
  rw [List.append_nil] at hahead
  have hfollows := follows_parseType n ⟨0, lexemes⟩
  rw [Cursor.bare_eq_ahead h, hahead] at hfollows
  cases hrun : parseType n ⟨0, lexemes⟩ with
  | error e =>
      rw [hrun] at hfollows
      cases hfollows
  | ok r =>
      obtain ⟨S, d⟩ := r
      rw [hrun] at hfollows
      cases hfollows with
      | ok heq =>
          obtain ⟨rfl, hd⟩ := Prod.mk.inj heq
          refine ⟨d, rfl, ?_⟩
          rw [← Cursor.tokens_bare, ← hd]
          rfl

theorem parseType_displayed (hT : T.entryFree) : ∃ lexemes, lex T.display = .ok lexemes ∧
    ∀ n, bound lexemes ≤ n →
      ∃ d, parseType n ⟨0, lexemes⟩ = .ok (T, d) ∧ d.tokens = [.eof] := by
  obtain ⟨lexemes, hlex, htokens⟩ := T.lex_display
  refine ⟨lexemes, hlex, fun n hn => ?_⟩
  have hparse := parseType_tokens htokens hn
  rwa [ValueType.written_eq T hT] at hparse

theorem eq_of_display_eq (hT : T.entryFree) (hU : U.entryFree) (h : T.display = U.display) :
    T = U := by
  obtain ⟨lexemes, hlex, hparse⟩ := parseType_displayed hT
  obtain ⟨lexemes', hlex', hparse'⟩ := parseType_displayed hU
  rw [h, hlex', Except.ok.injEq] at hlex
  subst hlex
  obtain ⟨d, hd, -⟩ := hparse _ le_rfl
  obtain ⟨d', hd', -⟩ := hparse' _ le_rfl
  rw [hd, Except.ok.injEq, Prod.mk.injEq] at hd'
  exact hd'.1

end Parser

/-- The display of types without recorded entries is inverted by the parser, so that it tells
them apart. -/
theorem display_inverted :
    (∀ T : ValueType, T.entryFree → ∃ lexemes, lex T.display = .ok lexemes ∧
      ∀ n, Parser.bound lexemes ≤ n →
        ∃ d, Parser.parseType n ⟨0, lexemes⟩ = .ok (T, d) ∧ d.tokens = [.eof]) ∧
    ∀ T U : ValueType, T.entryFree → U.entryFree → T.display = U.display → T = U :=
  ⟨fun _ hT => Parser.parseType_displayed hT, fun _ _ hT hU => Parser.eq_of_display_eq hT hU⟩

/-- Nested parameters, with closing brackets side by side. -/
theorem display_inverted_nested :
    let T : ValueType := .declared .dict [.declared .list [.declared .num []], .declared .str []]
    T.entryFree ∧ T.display = "dict<list<num>, str>" ∧
      (∃ lexemes, lex T.display = .ok lexemes ∧ ∀ n, Parser.bound lexemes ≤ n →
        ∃ d, Parser.parseType n ⟨0, lexemes⟩ = .ok (T, d) ∧ d.tokens = [.eof]) ∧
      ∀ U : ValueType, U.entryFree → U.display = "dict<list<num>, str>" → U = T := by
  intro T
  have hfree : T.entryFree := by rfl
  have hdisplay : T.display = "dict<list<num>, str>" := by decide
  exact ⟨hfree, hdisplay, display_inverted.1 T hfree, fun U hU h =>
    display_inverted.2 U T hU hfree (h.trans hdisplay.symm)⟩

end DiamondScript
