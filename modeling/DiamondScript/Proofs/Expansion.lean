import DiamondScript.Proofs.Operands

namespace DiamondScript

open Style (group)

namespace Token

def Names (t : Token) (name : String) : Prop := t = .ident name ∨ t = .varName name

/-- The tokens that stand for themselves wherever they are. A semicolon does so as well, but what
is read up to it may be put elsewhere. -/
def plain : Token → Bool
  | .ident _ | .varName _ | .target _ | .eof => false
  | .keyword k => k ≠ .const ∧ k ≠ .func
  | .mark m => m ≠ .dot ∧ m ≠ .semicolon
  | _ => true

end Token

def ActionRef.ofTokens? : List Token → Option ActionRef
  | [.keyword .codeblock, .string action, .mark .less, .string category, .mark .greater] =>
    some ⟨action, category, none⟩
  | [.target t, .keyword .codeblock, .string action, .mark .less, .string category,
      .mark .greater] => some ⟨action, category, some t⟩
  | _ => none

/-- What a name is short for: the tokens of an expression, or a reference to an action. -/
inductive Abbreviation where
  | expr (ts : List Token)
  | action (ref : ActionRef)

def Abbreviation.tokens : Abbreviation → List Token
  | .expr ts => group ts
  | .action ref => ref.tokens

abbrev Abbreviations := List (String × Abbreviation)

namespace Abbreviations

def meaning? (σ : Abbreviations) : Token → Option Abbreviation
  | .ident name | .varName name => σ.lookup name
  | _ => none

def action? (σ : Abbreviations) : List Token → Option ActionRef
  | [] => none
  | t :: _ =>
    match σ.meaning? t with
    | some (.action ref) => some ref
    | _ => none

/-- What a token stands for. A name before a colon is declared there. -/
def unfold (σ : Abbreviations) (t : Token) (ts : List Token) : List Token :=
  if ts.head? = some (.mark .colon) then [t]
  else match σ.meaning? t with
    | some a => a.tokens
    | none => [t]

end Abbreviations

/-- Tokens without definitions of constants and with their names written out where operands are
read. A name behind `func` is declared there, and one behind a dot is a key. What stands behind the
end of file is not read. -/
def expand (σ : Abbreviations) : List Token → List Token
  | [] => []
  | .eof :: ts => .eof :: ts
  | .keyword .const :: .ident name :: .mark .equals :: ts =>
    let value := ts.takeWhile (· ≠ .mark .semicolon)
    let rest := ts.drop (value.length + 1)
    match ActionRef.ofTokens? value with
    | some ref => expand ((name, .action ref) :: σ) rest
    | none => expand ((name, .expr (expand σ value)) :: σ) rest
  | .keyword .const :: ts => expand σ ts
  | .keyword .func :: .ident name :: ts => .keyword .func :: .ident name :: expand σ ts
  | .mark .dot :: .ident key :: ts => .mark .dot :: .ident key :: expand σ ts
  | .target t :: ts =>
    match σ.action? ts with
    | some ref => { ref with target := some t }.tokens ++ expand σ (ts.drop 1)
    | none => .target t :: expand σ ts
  | t :: ts => σ.unfold t ts ++ expand σ ts
termination_by ts => ts.length
decreasing_by
  all_goals simp only [List.length_cons, List.length_drop]
  all_goals try omega
  have hvalue := (List.takeWhile_sublist (· ≠ .mark .semicolon) (l := ts)).length_le
  omega

def Abbreviations.abbreviate (σ : Abbreviations) (value : List Token) : Abbreviation :=
  match ActionRef.ofTokens? value with
  | some ref => .action ref
  | none => .expr (expand σ value)

section

variable {σ : Abbreviations} {t : Token} {name : String} (ts : List Token)

theorem expand_plain (h : t.plain ∨ t = .mark .semicolon) :
    expand σ (t :: ts) = t :: expand σ ts := by
  have hunfold : σ.unfold t ts = [t] := by
    rw [Abbreviations.unfold]
    cases t with
    | ident | varName => simp [Token.plain] at h
    | _ => simp [Abbreviations.meaning?]
  cases t with
  | keyword k => cases k <;> simp_all [Token.plain, expand]
  | mark m => cases m <;> simp_all [Token.plain, expand]
  | _ => simp_all [Token.plain, expand]

theorem expand_func : expand σ (.keyword .func :: .ident name :: ts) =
    .keyword .func :: .ident name :: expand σ ts := by
  rw [expand]

theorem expand_key : expand σ (.mark .dot :: .ident name :: ts) =
    .mark .dot :: .ident name :: expand σ ts := by
  rw [expand]

theorem expand_name (h : t.Names name) : expand σ (t :: ts) = σ.unfold t ts ++ expand σ ts := by
  rcases h with rfl | rfl <;> simp only [expand]

theorem expand_declared (h : t.Names name) :
    expand σ (t :: .mark .colon :: ts) = t :: .mark .colon :: expand σ ts := by
  rw [expand_name _ h, Abbreviations.unfold, if_pos List.head?_cons,
    expand_plain _ (.inl rfl)]
  rfl

theorem Token.Names.meaning? (h : t.Names name) : σ.meaning? t = σ.lookup name := by
  rcases h with rfl | rfl <;> rfl

theorem expand_free (h : t.Names name) (hfree : σ.lookup name = none) :
    expand σ (t :: ts) = t :: expand σ ts := by
  rw [expand_name _ h, Abbreviations.unfold, h.meaning?, hfree]
  split <;> rfl

theorem expand_used {ts : List Token} {a : Abbreviation} (h : t.Names name)
    (hused : σ.lookup name = some a) (hts : ts.head? ≠ some (.mark .colon)) :
    expand σ (t :: ts) = a.tokens ++ expand σ ts := by
  rw [expand_name _ h, Abbreviations.unfold, if_neg hts, h.meaning?, hused]

theorem expand_targeted {ref : ActionRef} (target : Target) (h : t.Names name)
    (hused : σ.lookup name = some (.action ref)) :
    expand σ (.target target :: t :: ts) =
      { ref with target := some target }.tokens ++ expand σ ts := by
  have haction : σ.action? (t :: ts) = some ref := by
    rw [Abbreviations.action?, h.meaning?, hused]
  rw [expand, haction]
  rfl

theorem expand_target (target : Target) : expand σ (.target target :: .keyword .codeblock :: ts) =
    .target target :: .keyword .codeblock :: expand σ ts := by
  rw [expand]
  exact congrArg _ (expand_plain ts (.inl rfl))

theorem expand_const {value : List Token} (h : .mark .semicolon ∉ value) :
    expand σ (.keyword .const :: .ident name :: .mark .equals ::
      (value ++ .mark .semicolon :: ts)) = expand ((name, σ.abbreviate value) :: σ) ts := by
  have htake : (value ++ .mark .semicolon :: ts).takeWhile (· ≠ .mark .semicolon) = value := by
    rw [List.takeWhile_append_of_pos]
    · simp
    · intro t ht
      exact decide_eq_true (ne_of_mem_of_not_mem ht h)
  have hdrop : (value ++ .mark .semicolon :: ts).drop (value.length + 1) = ts := by
    simp
  rw [expand, htake, hdrop, Abbreviations.abbreviate]
  cases ActionRef.ofTokens? value <;> rfl

end

/-- No constant is defined before the end of file. -/
def ConstantFree (ts : List Token) : Prop := .keyword .const ∉ ts.takeWhile (· ≠ .eof)

theorem constantFree_cons {t : Token} {ts : List Token} :
    ConstantFree (t :: ts) ↔ t = .eof ∨ (t ≠ .keyword .const ∧ ConstantFree ts) := by
  unfold ConstantFree
  by_cases ht : t = .eof
  · simp [ht]
  · simp [ht, eq_comm]

theorem constantFree_append {ts us : List Token} (hts : ConstantFree ts)
    (hus : ConstantFree us) : ConstantFree (ts ++ us) := by
  induction ts with
  | nil => exact hus
  | cons t ts ih =>
      rw [List.cons_append, constantFree_cons]
      rw [constantFree_cons] at hts
      exact hts.imp_right fun h => ⟨h.1, ih h.2⟩

theorem constantFree_action (ref : ActionRef) : ConstantFree ref.tokens := by
  obtain ⟨action, category, _ | target⟩ := ref <;> simp [ConstantFree, ActionRef.tokens]

theorem constantFree_group {ts : List Token} (h : ConstantFree ts) : ConstantFree (group ts) := by
  have hclose : ConstantFree [.mark .rightParen] := by simp [ConstantFree]
  rw [group, constantFree_cons]
  exact .inr ⟨by simp, constantFree_append h hclose⟩

theorem constantFree_unfold {σ : Abbreviations} (hσ : ∀ a ∈ σ, ConstantFree a.2.tokens)
    {t : Token} (ht : t ≠ .keyword .const) (ts : List Token) : ConstantFree (σ.unfold t ts) := by
  have hself : ConstantFree [t] := constantFree_cons.mpr (.inr ⟨ht, List.not_mem_nil⟩)
  rw [Abbreviations.unfold]
  split
  · exact hself
  · cases hmeaning : σ.meaning? t with
    | none => exact hself
    | some a =>
        obtain ⟨name, hmem⟩ : ∃ name, (name, a) ∈ σ := by
          cases t with
          | ident name | varName name =>
              obtain ⟨front, back, rfl, -⟩ := List.lookup_eq_some_iff.mp hmeaning
              exact ⟨name, by simp⟩
          | _ => cases hmeaning
        exact hσ _ hmem

theorem constantFree_expand {σ : Abbreviations} (ts : List Token)
    (hσ : ∀ a ∈ σ, ConstantFree a.2.tokens) : ConstantFree (expand σ ts) := by
  fun_induction expand σ ts with
  | case1 => exact List.not_mem_nil
  | case2 => exact constantFree_cons.mpr (.inl rfl)
  | case3 σ name ts value rest ref _ ih =>
      exact ih (List.forall_mem_cons.mpr ⟨constantFree_action ref, hσ⟩)
  | case4 σ name ts value rest _ ihvalue _ ih =>
      exact ih (List.forall_mem_cons.mpr ⟨constantFree_group (ihvalue hσ), hσ⟩)
  | case5 σ ts _ ih => exact ih hσ
  | case6 σ name ts ih | case7 σ name ts ih =>
      rw [constantFree_cons, constantFree_cons]
      exact .inr ⟨by simp, .inr ⟨by simp, ih hσ⟩⟩
  | case8 σ target ts ref _ ih => exact constantFree_append (constantFree_action _) (ih hσ)
  | case9 σ target ts _ ih => exact constantFree_cons.mpr (.inr ⟨by simp, ih hσ⟩)
  | case10 σ t ts _ _ hconst _ _ _ ih =>
      exact constantFree_append (constantFree_unfold hσ hconst ts) (ih hσ)

structure Expands (σ : Abbreviations) (E : List Token → List Token) : Prop where
  plain {t : Token} (h : t.plain) (ts : List Token) : E (t :: ts) = t :: E ts
  key (name : String) (ts : List Token) :
    E (.mark .dot :: .ident name :: ts) = .mark .dot :: .ident name :: E ts
  free {t : Token} {name : String} (h : t.Names name) (hfree : σ.lookup name = none)
    (ts : List Token) : E (t :: ts) = t :: E ts
  used {t : Token} {name : String} {a : Abbreviation} (h : t.Names name)
    (hused : σ.lookup name = some a) {ts : List Token} (hts : ts.head? ≠ some (.mark .colon)) :
    E (t :: ts) = a.tokens ++ E ts
  targeted {t : Token} {name : String} {ref : ActionRef} (target : Target) (h : t.Names name)
    (hused : σ.lookup name = some (.action ref)) (ts : List Token) :
    E (.target target :: t :: ts) = { ref with target := some target }.tokens ++ E ts
  target (target : Target) (ts : List Token) : E (.target target :: .keyword .codeblock :: ts) =
    .target target :: .keyword .codeblock :: E ts

theorem expands_expand (σ : Abbreviations) : Expands σ (expand σ) where
  plain h ts := expand_plain ts (.inl h)
  key _ ts := expand_key ts
  free h hfree ts := expand_free ts h hfree
  used h hused _ hts := expand_used h hused hts
  targeted target h hused ts := expand_targeted ts target h hused
  target target ts := expand_target ts target

theorem Token.Names.ne {t u : Token} {name : String} (h : t.Names name)
    (hu : ∀ name, ¬ u.Names name) : t ≠ u := by
  rintro rfl
  exact hu name h

theorem takeWhile_cons_ne {t u : Token} (h : t ≠ u) (ts : List Token) :
    (t :: ts).takeWhile (· ≠ u) = t :: ts.takeWhile (· ≠ u) :=
  List.takeWhile_cons_of_pos (decide_eq_true h)

theorem dropWhile_cons_ne {t u : Token} (h : t ≠ u) (ts : List Token) :
    (t :: ts).dropWhile (· ≠ u) = ts.dropWhile (· ≠ u) :=
  List.dropWhile_cons_of_pos (decide_eq_true h)

/-- The value of a constant is expanded up to the semicolon behind it; what follows where the value
is put may depend on what follows the definition. -/
def expandValue (σ : Abbreviations) (R : List Token → List Token) (ts : List Token) : List Token :=
  expand σ (ts.takeWhile (· ≠ .mark .semicolon)) ++ R (ts.dropWhile (· ≠ .mark .semicolon))

theorem expandValue_semicolon (σ : Abbreviations) (R : List Token → List Token)
    (ts : List Token) :
    expandValue σ R (.mark .semicolon :: ts) = R (.mark .semicolon :: ts) := by
  simp [expandValue, expand]

theorem expands_expandValue (σ : Abbreviations) (R : List Token → List Token) :
    Expands σ (expandValue σ R) where
  plain {t} h ts := by
    have ht : t ≠ .mark .semicolon := by
      rintro rfl
      cases h
    rw [expandValue, takeWhile_cons_ne ht, dropWhile_cons_ne ht, expand_plain _ (.inl h)]
    rfl
  key name ts := by
    rw [expandValue, takeWhile_cons_ne (by simp), takeWhile_cons_ne (by simp),
      dropWhile_cons_ne (by simp), dropWhile_cons_ne (by simp), expand_key]
    rfl
  free h hfree ts := by
    have ht := h.ne (u := .mark .semicolon) (by simp [Token.Names])
    rw [expandValue, takeWhile_cons_ne ht, dropWhile_cons_ne ht, expand_free _ h hfree]
    rfl
  used h hused ts hts := by
    have ht := h.ne (u := .mark .semicolon) (by simp [Token.Names])
    have hhead : (ts.takeWhile (· ≠ .mark .semicolon)).head? ≠ some (.mark .colon) := by
      cases ts with
      | nil => simp
      | cons u ts =>
          rw [List.takeWhile_cons]
          split
          · exact hts
          · simp
    rw [expandValue, takeWhile_cons_ne ht, dropWhile_cons_ne ht, expand_used h hused hhead,
      List.append_assoc]
    rfl
  targeted target h hused ts := by
    have ht := h.ne (u := .mark .semicolon) (by simp [Token.Names])
    rw [expandValue, takeWhile_cons_ne (by simp), takeWhile_cons_ne ht,
      dropWhile_cons_ne (by simp), dropWhile_cons_ne ht, expand_targeted _ target h hused,
      List.append_assoc]
    rfl
  target target ts := by
    rw [expandValue, takeWhile_cons_ne (by simp), takeWhile_cons_ne (by simp),
      dropWhile_cons_ne (by simp), dropWhile_cons_ne (by simp), expand_target]
    rfl

end DiamondScript
