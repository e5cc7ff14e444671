import DiamondScript.Compile
import DiamondScript.Proofs.Agreement
import DiamondScript.Proofs.Spacing

namespace DiamondScript

open Codegen Lexer

inductive Stage where
  | lexical
  | syntactic
  | semantic
  deriving DecidableEq, Repr

def Diagnostic.stage : Diagnostic → Stage
  | .lexical _ => .lexical
  | .syntactic _ => .syntactic
  | .semantic _ => .semantic

/-- What is left of an error without its place. -/
def Diagnostic.complaint (d : Diagnostic) : Stage × String := (d.stage, d.message)

theorem generate_bare (schema : Schema) (definitions : List Definition) :
    Same (generate schema definitions) (generate schema (definitions.map Definition.bare)) := by
  rw [generate_eq, generate_eq]
  have hagree := Scope.Agree.refl (fun _ => True) State.start.scope
  refine Alike.bind (inStep_run schema hagree definitions fun _ _ _ _ => trivial) ?_
  rintro s t ⟨-, later, hs, ht⟩
  rw [hs, ht]
  exact .ok rfl

def compileTokens (schema : Schema) (lexemes : List Lexeme) : Except Diagnostic Program := do
  let definitions ← (parse lexemes).mapError .syntactic
  (generate schema definitions).mapError .semantic

theorem compile_eq_compileTokens {source : String} {lexemes : List Lexeme}
    (h : lex source = .ok lexemes) (schema : Schema) :
    compile schema source = compileTokens schema lexemes := by
  rw [compile, parseSource, h]
  rfl

theorem compileTokens_bare (schema : Schema) (lexemes : List Lexeme) :
    (compileTokens schema lexemes).mapError Diagnostic.complaint =
      (compileTokens schema (lexemes.map Lexeme.bare)).mapError Diagnostic.complaint := by
  have hsyntactic (e e' : ParseError) (h : e.fault = e'.fault) :
      (Diagnostic.syntactic e).complaint = (Diagnostic.syntactic e').complaint := by
    simp only [Diagnostic.complaint, Diagnostic.stage, Diagnostic.message, h]
  have hsemantic (e e' : SemanticError) (h : e.fault = e'.fault) :
      (Diagnostic.semantic e).complaint = (Diagnostic.semantic e').complaint := by
    simp only [Diagnostic.complaint, Diagnostic.stage, Diagnostic.message, h]
  have hparsed : Alike (fun d d' => d.complaint = d'.complaint)
      (fun ds ds' => ds' = ds.map Definition.bare) ((parse lexemes).mapError Diagnostic.syntactic)
      ((parse (lexemes.map Lexeme.bare)).mapError Diagnostic.syntactic) :=
    (parse_bare lexemes).mapError hsyntactic
  refine Alike.eq (Alike.mapError (hparsed.bind ?_) fun _ _ h => h)
  rintro definitions _ rfl
  exact (generate_bare schema definitions).mapError hsemantic

/-- Layout does not matter: the token texts of a source, laid out in any other way, give the same
tokens, and the same program or the same complaint. -/
theorem compile_laidOut {source source' : String} {lexemes : List Lexeme}
    (h : lex source = .ok lexemes)
    (hlaid : LaidOut (tokenTexts source.toList lexemes) source'.toList) :
    (∃ lexemes', lex source' = .ok lexemes' ∧
      lexemes'.map Lexeme.token = lexemes.map Lexeme.token) ∧
    ∀ schema, (compile schema source').mapError Diagnostic.complaint =
      (compile schema source).mapError Diagnostic.complaint := by
  obtain ⟨lexemes', h', htokens⟩ := lex_laidOut h hlaid
  refine ⟨⟨lexemes', h', htokens⟩, fun schema => ?_⟩
  have hbare : lexemes'.map Lexeme.bare = lexemes.map Lexeme.bare := by
    have hmap := congrArg (List.map fun t => Lexeme.mk t .nowhere) htokens
    rwa [List.map_map, List.map_map] at hmap
  rw [compile_eq_compileTokens h, compile_eq_compileTokens h', compileTokens_bare schema lexemes',
    hbare, ← compileTokens_bare]

/-- A division in front of a comment, and a literal that looks like one. -/
theorem compile_laidOut_comments :
    ∃ lexemes, lex "const c=1/\"//\";" = .ok lexemes ∧
      LaidOut (tokenTexts "const c=1/\"//\";".toList lexemes)
        "//\nconst c\t= 1 / //x\n\"//\" ; //".toList ∧
      (∃ lexemes', lex "//\nconst c\t= 1 / //x\n\"//\" ; //" = .ok lexemes' ∧
        lexemes'.map Lexeme.token = lexemes.map Lexeme.token) ∧
      ∀ schema,
        (compile schema "//\nconst c\t= 1 / //x\n\"//\" ; //").mapError Diagnostic.complaint =
          (compile schema "const c=1/\"//\";").mapError Diagnostic.complaint := by
  obtain ⟨lexemes, h, htexts⟩ : ∃ lexemes, lex "const c=1/\"//\";" = .ok lexemes ∧
      tokenTexts "const c=1/\"//\";".toList lexemes =
        [['c', 'o', 'n', 's', 't'], ['c'], ['='], ['1'], ['/'], ['"', '/', '/', '"'], [';']] :=
    ⟨_, rfl, rfl⟩
  have hlaid : LaidOut (tokenTexts "const c=1/\"//\";".toList lexemes)
      "//\nconst c\t= 1 / //x\n\"//\" ; //".toList := by
    have hspace : Separator [' '] := .mk rfl .nil
    have htab : Separator ['\t'] := .mk rfl .nil
    have hheading : Lexer.Layout ['/', '/', '\n'] := @Lexer.Layout.comment [] [] (by decide) .nil
    have hremark : Separator [' ', '/', '/', 'x', '\n'] :=
      .mk rfl (@Lexer.Layout.comment ['x'] [] (by decide) .nil)
    have hclose := @Spaced.close [' '] ['/', '/'] hspace (.comment (by decide))
    rw [htexts]
    exact .first hheading (.next hspace (.next htab (.next hspace (.next hspace
      (.next hremark (.next hspace hclose))))))
  exact ⟨lexemes, h, hlaid, compile_laidOut h hlaid⟩

end DiamondScript
