import DiamondScript.Language.Token

namespace DiamondScript

inductive LexFault where
  | unterminatedLiteral
  | quoteExpected
  | unexpectedCharacter (c : Char)
  | unknownTarget (word : String)
  deriving DecidableEq, Repr

structure LexError where
  fault : LexFault
  span : Span
  deriving DecidableEq, Repr

def LexFault.message : LexFault → String
  | .unterminatedLiteral => "Unterminated string literal"
  | .quoteExpected => "Expected '\"' after '$'"
  | .unexpectedCharacter c => s!"Unexpected character '{c}'"
  | .unknownTarget word => s!"Unknown target '@{word}'"

namespace Lexer

def width (cs : List Char) : Nat := cs.foldl (fun n c => n + c.utf8Size) 0

def isBlank (c : Char) : Bool := c = ' ' || c = '\t' || c = '\r' || c = '\n'

def isWordStart (c : Char) : Bool := c.isAlpha || c = '_'

def isWordChar (c : Char) : Bool := c.isAlphanum || c = '_'

/-- Steps over blanks and comments. The flag tells whether the position is inside a comment,
which ends before the next newline. -/
def skipLayout : Bool → Nat → List Char → Nat × List Char
  | _, pos, [] => (pos, [])
  | true, pos, c :: rest =>
    if c = '\n' then skipLayout false (pos + 1) rest else skipLayout true (pos + c.utf8Size) rest
  | false, pos, c :: rest =>
    if isBlank c then skipLayout false (pos + 1) rest
    else if c = '/' ∧ rest.head? = some '/' then skipLayout true (pos + 1) rest
    else (pos, c :: rest)

/-- The text of a literal up to its closing quote, or up to the end of the line if it has
none. -/
inductive Quoted where
  | closed (body rest : List Char)
  | unclosed (body : List Char)

def Quoted.push (cs : List Char) : Quoted → Quoted
  | .closed body rest => .closed (cs ++ body) rest
  | .unclosed body => .unclosed (cs ++ body)

/-- Reads a literal from behind its opening quote. A backslash keeps the next character from
closing the literal, and both stay in its text. -/
def scanQuoted (quote : Char) : List Char → Quoted
  | [] => .unclosed []
  | [c] => if c = quote then .closed [] [] else if c = '\n' then .unclosed [] else .unclosed [c]
  | c :: d :: rest =>
    if c = quote then .closed [] (d :: rest)
    else if c = '\n' then .unclosed []
    else if c = '\\' ∧ d ≠ '\n' then (scanQuoted quote rest).push [c, d]
    else (scanQuoted quote (d :: rest)).push [c]

/-- A token and what follows it, read from a text that starts at a byte offset. -/
abbrev Scan := Except LexError (Lexeme × List Char)

def emit (pos : Nat) (token : Token) (text rest : List Char) : Scan :=
  .ok (⟨token, ⟨pos, pos + width text⟩⟩, rest)

/-- A quoted literal whose opening quote is preceded by `lead`. -/
def scanLiteral (pos : Nat) (lead : List Char) (quote : Char) (make : String → Token)
    (cs : List Char) : Scan :=
  match scanQuoted quote cs with
  | .closed body rest =>
    emit pos (make (String.ofList body)) (lead ++ quote :: (body ++ [quote])) rest
  | .unclosed body =>
    .error ⟨.unterminatedLiteral, ⟨pos + width lead, pos + width (lead ++ quote :: body)⟩⟩

def natOfDigits (cs : List Char) : Nat := cs.foldl (fun n c => n * 10 + (c.toNat - 48)) 0

/-- Digits, and a fraction where the point is followed by a digit. -/
def scanNumber (pos : Nat) (cs : List Char) : Scan :=
  let whole := cs.takeWhile Char.isDigit
  match cs.dropWhile Char.isDigit with
  | '.' :: rest =>
    let fraction := rest.takeWhile Char.isDigit
    if fraction.isEmpty then
      emit pos (.number (Binary64.ofDecimal false (natOfDigits whole) 0)) whole ('.' :: rest)
    else
      let x := Binary64.ofDecimal false (natOfDigits (whole ++ fraction)) (-fraction.length)
      emit pos (.number x) (whole ++ '.' :: fraction) (rest.dropWhile Char.isDigit)
  | rest => emit pos (.number (Binary64.ofDecimal false (natOfDigits whole) 0)) whole rest

def wordToken (word : String) : Token :=
  match Keyword.ofText? word with
  | some k => .keyword k
  | none =>
    match BaseType.ofKeyword? word with
    | some t => .type t
    | none => .ident word

def scanWord (pos : Nat) (cs : List Char) : Scan :=
  let word := cs.takeWhile isWordChar
  emit pos (wordToken (String.ofList word)) word (cs.dropWhile isWordChar)

def scanTarget (pos : Nat) (cs : List Char) : Scan :=
  let word := cs.takeWhile isWordChar
  match Target.ofKeyword? (String.ofList word) with
  | some t => emit pos (.target t) ('@' :: word) (cs.dropWhile isWordChar)
  | none => .error ⟨.unknownTarget (String.ofList word), ⟨pos, pos + width ('@' :: word)⟩⟩

def markOf? : Char → Option Mark
  | '(' => some .leftParen
  | ')' => some .rightParen
  | '[' => some .leftBracket
  | ']' => some .rightBracket
  | '{' => some .leftBrace
  | '}' => some .rightBrace
  | ';' => some .semicolon
  | ':' => some .colon
  | '?' => some .question
  | ',' => some .comma
  | '+' => some .plus
  | '-' => some .minus
  | '*' => some .star
  | '/' => some .slash
  | '^' => some .caret
  | '=' => some .equals
  | '<' => some .less
  | '>' => some .greater
  | '.' => some .dot
  | _ => none

/-- The first token of a text that starts with the character `c`. -/
def scanToken (pos : Nat) (c : Char) (rest : List Char) : Scan :=
  if c = '"' then scanLiteral pos [] '"' .string rest
  else if c = '`' then scanLiteral pos [] '`' .styledText rest
  else if c = '$' then
    match rest with
    | '"' :: rest => scanLiteral pos ['$'] '"' .varName rest
    | _ => .error ⟨.quoteExpected, ⟨pos, pos + 1⟩⟩
  else if c = '@' then scanTarget pos rest
  else if c.isDigit then scanNumber pos (c :: rest)
  else if isWordStart c then scanWord pos (c :: rest)
  else
    match c, rest with
    | '.', '.' :: '.' :: rest => emit pos (.mark .ellipsis) ['.', '.', '.'] rest
    | _, _ =>
      match markOf? c with
      | some m => emit pos (.mark m) [c] rest
      | none => .error ⟨.unexpectedCharacter c, ⟨pos, pos + c.utf8Size⟩⟩

/-- The tokens of a text, closed by the end of file. The count bounds the tokens and is
never short: every token takes at least one character. -/
def scanAll : Nat → Nat → List Char → Except LexError (List Lexeme)
  | 0, pos, _ => .ok [⟨.eof, ⟨pos, pos⟩⟩]
  | n + 1, pos, cs =>
    match skipLayout false pos cs with
    | (pos, []) => .ok [⟨.eof, ⟨pos, pos⟩⟩]
    | (pos, c :: rest) => do
      let (lexeme, rest) ← scanToken pos c rest
      let lexemes ← scanAll n lexeme.span.stop rest
      .ok (lexeme :: lexemes)

end Lexer

def lex (source : String) : Except LexError (List Lexeme) :=
  Lexer.scanAll (source.toList.length + 1) 0 source.toList

end DiamondScript
