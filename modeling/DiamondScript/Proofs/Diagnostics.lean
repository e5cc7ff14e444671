import DiamondScript.Project
import DiamondScript.Proofs.ParserSpans
import Mathlib.Data.List.DropRight

namespace DiamondScript

open Lexer

theorem lex_error {source : String} {e : LexError} (h : lex source = .error e) :
    e.span.Within source := by
  suffices hscan : ∀ n before cs, source.toList = before ++ cs →
      scanAll n (width before) cs = .error e → e.span.Within source from
    hscan _ [] source.toList rfl h
  intro n
  induction n with
  | zero => nofun
  | succ n ih =>
      intro before cs hsource h
      obtain ⟨gap, rest, rfl, -, hskip⟩ := skipLayout_gap (width before) cs
      rw [← List.append_assoc] at hsource
      rw [← width_append] at hskip
      rw [scanAll, hskip] at h
      cases rest with
      | nil => cases h
      | cons c rest =>
          rcases bind_eq_error.mp h with hscan | ⟨⟨lexeme, rest'⟩, hscan, hmore⟩
          · have houtcome := scanToken_outcome (width (before ++ gap)) c rest
            rw [hscan] at houtcome
            obtain _ | @⟨fault, lead, text, rest', hsplit⟩ := houtcome
            rw [hsplit, ← List.append_assoc] at hsource
            rw [← width_append, ← width_append, ← List.append_assoc]
            exact Span.within_of_split hsource
          · obtain ⟨w, hsplit, rfl⟩ := word_of_scanToken hskip hscan
            rw [hsplit, ← List.append_assoc] at hsource
            rcases bind_eq_error.mp hmore with hlater | ⟨lexemes, -, hdone⟩
            · rw [← width_append] at hlater
              exact ih _ rest' hsource hlater
            · cases hdone

theorem Accounts.past {source : String} {lexemes : List Lexeme} (h : Accounts source lexemes) :
    Cursor.Past source 0 ⟨0, lexemes⟩ :=
  ⟨⟨h.cursor_closed 0, h.within, h.disjoint, String.Pos.Raw.isValid_zero,
    fun _ _ => Nat.zero_le _⟩, Nat.le_refl _⟩

theorem parse_placed {source : String} {lexemes : List Lexeme} (h : Accounts source lexemes) :
    (∀ definitions, parse lexemes = .ok definitions →
      ∀ d ∈ definitions, d.Placed (Span.Within source)) ∧
    ∀ e, parse lexemes = .error e → e.span.Within source := by
  obtain ⟨hok, herror⟩ := @Parser.safe_parseDefinitions source 0 (Parser.bound lexemes) [] nofun _
    h.past
  constructor
  · intro definitions hparse
    obtain ⟨⟨definitions', d⟩, hrun, hdone⟩ := bind_eq_ok.mp hparse
    cases hdone
    exact hok definitions d hrun
  · intro e hparse
    rcases bind_eq_error.mp hparse with hrun | ⟨r, -, hdone⟩
    · exact herror e hrun
    · cases hdone

theorem compile_error_within {schema : Schema} {source : String} {d : Diagnostic}
    (h : compile schema source = .error d) : d.span.Within source := by
  rcases bind_eq_error.mp h with hsource | ⟨definitions, hsource, hgenerate⟩
  · rcases bind_eq_error.mp hsource with hlex | ⟨lexemes, hlex, hparse⟩
    · obtain ⟨e, he, rfl⟩ := mapError_eq_error.mp hlex
      exact lex_error he
    · obtain ⟨e, he, rfl⟩ := mapError_eq_error.mp hparse
      exact (parse_placed (accounts_of_lex (mapError_eq_ok.mp hlex))).2 e he
  · obtain ⟨lexemes, hlex, hparse⟩ := bind_eq_ok.mp hsource
    obtain ⟨e, he, rfl⟩ := mapError_eq_error.mp hgenerate
    have hplaced := (parse_placed (accounts_of_lex (mapError_eq_ok.mp hlex))).1
    exact generate_error (hplaced definitions (mapError_eq_ok.mp hparse)) he

namespace Location

def behind (before : List Char) : Nat × Nat :=
  (1 + before.count '\n', 1 + (before.rtakeWhile (· ≠ '\n')).length)

theorem behind_concat (before : List Char) (c : Char) :
    behind (before ++ [c]) =
      if c = '\n' then ((behind before).1 + 1, 1)
      else ((behind before).1, (behind before).2 + 1) := by
  simp only [behind, List.count_append, List.count_singleton, List.rtakeWhile_concat]
  by_cases hc : c = '\n' <;> simp [hc, Nat.add_assoc]

/-- A walk over the characters up to a boundary counts what it is behind. -/
theorem advance_behind (before cs after : List Char) :
    advance (width (before ++ cs)) (width before) (behind before) (cs ++ after) =
      behind (before ++ cs) := by
  induction cs generalizing before with
  | nil =>
      rw [List.append_nil, List.nil_append]
      cases after with
      | nil => rfl
      | cons c rest => rw [behind, advance, if_pos (Nat.le_refl _)]
  | cons c cs ih =>
      have hpos := c.utf8Size_pos
      have hlt : ¬ width (before ++ c :: cs) ≤ width before := by
        rw [width_append, width_cons]
        omega
      have hstep := ih (before ++ [c])
      rw [behind_concat, List.append_assoc, List.singleton_append, width_append before [c],
        width_cons] at hstep
      rw [List.cons_append, behind, advance, if_neg hlt]
      exact hstep

end Location

/-- An error is reported at its place: inside the source, on character boundaries, with the line
and the column of its start, also where it was found inside a constant. -/
theorem compile_error_located {schema : Schema} {source : String} {d : Diagnostic}
    (h : compile schema source = .error d) (file : String) :
    let before := Span.text source.toList ⟨0, d.span.start⟩
    d.span.Within source ∧
      compileFile schema file source = (do
        Job.noteAll (compileRecords schema source)
        throw (.compile ⟨file, 1 + before.count '\n',
          1 + (before.rtakeWhile (· ≠ '\n')).length⟩ d)) := by
  intro before
  have hwithin := compile_error_within h
  refine ⟨hwithin, ?_⟩
  obtain ⟨front, after, hsplit, hstart⟩ := exists_of_isValid hwithin.starts
  have hbefore : before = front := by
    have htext := Span.text_eq [] front after
    rwa [List.nil_append, ← hsplit, ← hstart, show width [] = 0 from rfl, Nat.zero_add] at htext
  have hlocate : d.locate file source = ⟨file, 1 + before.count '\n',
      1 + (before.rtakeWhile (· ≠ '\n')).length⟩ := by
    have hwalk := Location.advance_behind [] front after
    rw [List.nil_append, ← hsplit, ← hstart] at hwalk
    rw [hbefore, Diagnostic.locate, Location.ofOffset, Location.lineColumn]
    exact congrArg (fun r : Nat × Nat => Location.mk file r.1 r.2) hwalk
  unfold compileFile
  rw [h, ← hlocate]

/-- An operand of the wrong type in a constant, found where the constant is used and reported
where it is defined, behind a character of two bytes. -/
theorem compile_error_located_constant :
    let schema := Schema.ofCatalog ⟨[], [⟨"FUNCTION", "func"⟩]⟩
    let source := "// é\nconst c = \"b\" + \"a\";\nfunc f() \x7b var x: num = c; \x7d"
    ∃ d, compile schema source = .error d ∧ d.span = ⟨20, 21⟩ ∧ d.span.Within source ∧
      compileFile schema "main" source = (do
        Job.noteAll (compileRecords schema source)
        throw (.compile ⟨"main", 2, 15⟩ d)) := by
  intro schema source
  have hsource : source =
      "// é\nconst c = \"b\" + \"a\";\nfunc f() \x7b var x: num = c; \x7d" := rfl
  -- The stages are run one by one: each is small, their composition is not.
  have hlex : lex source = .ok [⟨.keyword .const, ⟨6, 11⟩⟩, ⟨.ident "c", ⟨12, 13⟩⟩,
      ⟨.mark .equals, ⟨14, 15⟩⟩, ⟨.string "b", ⟨16, 19⟩⟩, ⟨.mark .plus, ⟨20, 21⟩⟩,
      ⟨.string "a", ⟨22, 25⟩⟩, ⟨.mark .semicolon, ⟨25, 26⟩⟩, ⟨.keyword .func, ⟨27, 31⟩⟩,
      ⟨.ident "f", ⟨32, 33⟩⟩, ⟨.mark .leftParen, ⟨33, 34⟩⟩, ⟨.mark .rightParen, ⟨34, 35⟩⟩,
      ⟨.mark .leftBrace, ⟨36, 37⟩⟩, ⟨.keyword .var, ⟨38, 41⟩⟩, ⟨.ident "x", ⟨42, 43⟩⟩,
      ⟨.mark .colon, ⟨43, 44⟩⟩, ⟨.type .num, ⟨45, 48⟩⟩, ⟨.mark .equals, ⟨49, 50⟩⟩,
      ⟨.ident "c", ⟨51, 52⟩⟩, ⟨.mark .semicolon, ⟨52, 53⟩⟩, ⟨.mark .rightBrace, ⟨54, 55⟩⟩,
      ⟨.eof, ⟨55, 55⟩⟩] := by
    rw [hsource]
    rfl
  have hparse : parseSource source = .ok [.func ⟨"f", [], some [.var ⟨.var, "x",
      .declared .num [], some (.binary ⟨51, 52⟩ .add ⟨20, 21⟩ (.str ⟨16, 19⟩ "b")
        (.str ⟨22, 25⟩ "a")), ⟨38, 53⟩⟩], ⟨32, 33⟩⟩] := by
    rw [parseSource, hlex]
    rfl
  have h : compile schema source = .error (.semantic ⟨.operandType, ⟨20, 21⟩⟩) := by
    rw [compile, hparse]
    rfl
  have hbefore : Span.text source.toList ⟨0, 20⟩ = "// é\nconst c = \"b\" ".toList := by
    rw [hsource]
    rfl
  obtain ⟨hwithin, hreport⟩ := compile_error_located h "main"
  rw [Diagnostic.span, hbefore] at hreport
  exact ⟨_, h, rfl, hwithin, hreport⟩

end DiamondScript
