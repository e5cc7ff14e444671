import DiamondScript.Language.BaseType
import DiamondScript.Language.Target
import DiamondScript.Number.Layout
import DiamondScript.Source.Span

namespace DiamondScript

inductive Keyword where
  | func
  | codeblock
  | out
  | const
  | local
  | game
  | save
  | var
  deriving DecidableEq, Repr

inductive Mark where
  | leftParen
  | rightParen
  | leftBracket
  | rightBracket
  | leftBrace
  | rightBrace
  | semicolon
  | colon
  | question
  | dot
  | comma
  | ellipsis
  | plus
  | minus
  | star
  | slash
  | caret
  | equals
  | less
  | greater
  deriving DecidableEq, Repr

inductive Token where
  | number (x : Binary64)
  | string (s : String)
  | varName (s : String)
  | styledText (s : String)
  | ident (s : String)
  | type (t : BaseType)
  | target (t : Target)
  | keyword (k : Keyword)
  | mark (m : Mark)
  | eof
  deriving DecidableEq, Repr

/-- A token and the span of source it was read from. -/
structure Lexeme where
  token : Token
  span : Span
  deriving DecidableEq, Repr

def Keyword.all : List Keyword := [.func, .codeblock, .out, .const, .local, .game, .save, .var]

def Keyword.text : Keyword → String
  | .func => "func"
  | .codeblock => "codeblock"
  | .out => "out"
  | .const => "const"
  | .local => "local"
  | .game => "game"
  | .save => "save"
  | .var => "var"

def Keyword.ofText? (word : String) : Option Keyword := all.find? fun k => k.text == word

def Mark.text : Mark → String
  | .leftParen => "("
  | .rightParen => ")"
  | .leftBracket => "["
  | .rightBracket => "]"
  | .leftBrace => "\x7b"
  | .rightBrace => "\x7d"
  | .semicolon => ";"
  | .colon => ":"
  | .question => "?"
  | .dot => "."
  | .comma => ","
  | .ellipsis => "..."
  | .plus => "+"
  | .minus => "-"
  | .star => "*"
  | .slash => "/"
  | .caret => "^"
  | .equals => "="
  | .less => "<"
  | .greater => ">"

namespace Token

/-- Numbers in diagnostics never have an exponent, and whole ones no point. -/
def numberLayout : Layout where
  positional _ := true
  pointZero := false
  exponentWidth := 1
  tie := .up
  notANumber := "NaN"
  infinite := "inf"

def describe : Token → String
  | .number x => "number " ++ numberLayout.text x
  | .string s => "string \"" ++ s ++ "\""
  | .varName s => "variable name $\"" ++ s ++ "\""
  | .styledText s => "styled text `" ++ s ++ "`"
  | .ident s => "identifier '" ++ s ++ "'"
  | .type t => "type '" ++ t.keyword ++ "'"
  | .target t => "target '" ++ t.wireName ++ "'"
  | .keyword k => "'" ++ k.text ++ "'"
  | .mark m => "'" ++ m.text ++ "'"
  | .eof => "end of file"

end Token
end DiamondScript
