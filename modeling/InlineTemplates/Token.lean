import InlineTemplates.Location

/-!
# Tokens

A source is cut into tokens. First each token has the kind that its text alone decides; then some
get the role that they play where they stand: which brace opens a block, which word acts as a
keyword, where a statement ends.
-/

namespace InlineTemplates

namespace Token

/-- The kinds of token. -/
inductive Kind where
  -- names and literals
  | name | privateName | number | string | template
  -- reserved words
  | importWord | exportWord | defaultWord | functionWord | classWord | extendsWord | returnWord
  | throwWord | ifWord | elseWord | forWord | whileWord | doWord | tryWord | catchWord
  | finallyWord | breakWord | continueWord | constWord | letWord | varWord | newWord | trueWord
  | falseWord | nullWord | typeofWord | voidWord | deleteWord | awaitWord | instanceofWord | inWord
  -- punctuation
  | leftParen | rightParen | leftBracket | rightBracket | leftBrace | rightBrace | dot
  | optionalChain | ellipsis | comma | colon | semicolon | question | arrow
  | assign | plusAssign | minusAssign | starAssign | slashAssign | percentAssign | orAssign
  | andAssign | nullishAssign
  | strictEqual | strictNotEqual | equal | notEqual | lessEqual | greaterEqual | less | greater
  | nullish | or | and | increment | decrement | plus | minus | star | slash | percent | bang
  -- line breaks
  | newline
  -- roles
  | terminator | blockBrace | classBrace | arrowParen | functionDeclaration | classDeclaration
  | fromWord | asWord | ofWord | asyncWord | staticWord | getWord | setWord
deriving DecidableEq, Inhabited

namespace Kind

/-- The reserved words. -/
def reservedWords : List (String × Kind) := [
  ("import", importWord), ("export", exportWord), ("default", defaultWord),
  ("function", functionWord), ("class", classWord), ("extends", extendsWord),
  ("return", returnWord), ("throw", throwWord), ("if", ifWord), ("else", elseWord),
  ("for", forWord), ("while", whileWord), ("do", doWord), ("try", tryWord), ("catch", catchWord),
  ("finally", finallyWord), ("break", breakWord), ("continue", continueWord),
  ("const", constWord), ("let", letWord), ("var", varWord), ("new", newWord), ("true", trueWord),
  ("false", falseWord), ("null", nullWord), ("typeof", typeofWord), ("void", voidWord),
  ("delete", deleteWord), ("await", awaitWord), ("instanceof", instanceofWord), ("in", inWord)]

/-- The punctuation, longer signs in front of shorter ones. The sign of an optional chain is not
here: it depends on what follows it. -/
def punctuation : List (String × Kind) := [
  ("===", strictEqual), ("!==", strictNotEqual), ("...", ellipsis), ("||=", orAssign),
  ("&&=", andAssign), ("??=", nullishAssign),
  ("=>", arrow), ("+=", plusAssign), ("-=", minusAssign), ("*=", starAssign),
  ("/=", slashAssign), ("%=", percentAssign), ("==", equal), ("!=", notEqual),
  ("<=", lessEqual), (">=", greaterEqual), ("??", nullish), ("||", or), ("&&", and),
  ("++", increment), ("--", decrement),
  ("(", leftParen), (")", rightParen), ("[", leftBracket), ("]", rightBracket),
  ("\x7b", leftBrace), ("\x7d", rightBrace), (".", dot), (",", comma), (":", colon),
  (";", semicolon), ("?", question), ("=", assign), ("<", less), (">", greater), ("+", plus),
  ("-", minus), ("*", star), ("/", slash), ("%", percent), ("!", bang)]

/-- Whether the kind is a reserved word. -/
def isReserved (k : Kind) : Bool := reservedWords.any (·.2 == k)

end Kind

end Token

/-- A token: its kind, its text, where it starts and where the text behind it starts. -/
structure Token where
  kind : Token.Kind
  text : Text
  start : Location
  stop : Location
deriving DecidableEq, Inhabited

/-- A comment, delimiters included, with its place. -/
structure Comment where
  text : Text
  start : Location
  stop : Location
deriving DecidableEq, Inhabited

end InlineTemplates
