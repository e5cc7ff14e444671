import DiamondScript.Codegen.Definition
import DiamondScript.Language.Lexer
import DiamondScript.Language.Parser
import DiamondScript.Source.Location

namespace DiamondScript

/-- An error in a source text, by the stage that found it. -/
inductive Diagnostic where
  | lexical (e : LexError)
  | syntactic (e : ParseError)
  | semantic (e : SemanticError)

namespace Diagnostic

def message : Diagnostic → String
  | .lexical e => e.fault.message
  | .syntactic e => e.fault.message
  | .semantic e => e.fault.message

def span : Diagnostic → Span
  | .lexical e => e.span
  | .syntactic e => e.span
  | .semantic e => e.span

def locate (file source : String) (d : Diagnostic) : Location :=
  Location.ofOffset file source d.span.start

end Diagnostic

def parseSource (source : String) : Except Diagnostic (List Definition) := do
  let tokens ← (lex source).mapError .lexical
  (parse tokens).mapError .syntactic

def compile (schema : Schema) (source : String) : Except Diagnostic Program := do
  let definitions ← parseSource source
  (generate schema definitions).mapError .semantic

/-- The remarks made while compiling, up to the stage that fails. -/
def compileRecords (schema : Schema) (source : String) : List Log.Record :=
  match lex source with
  | .error _ => []
  | .ok tokens =>
    ⟨.debug, "dfc::dsl", s!"lexed {tokens.length} tokens"⟩ :: match parse tokens with
      | .error _ => []
      | .ok definitions =>
        ⟨.debug, "dfc::dsl", s!"parsed {definitions.length} definitions"⟩
          :: generateRecords schema definitions

end DiamondScript
