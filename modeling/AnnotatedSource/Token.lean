import AnnotatedSource.Span

/-!
Lexical tokens.  Comments are tokens too: a line comment, a block comment and the interpreter line
that may open a script.
-/

set_option autoImplicit false
set_option relaxedAutoImplicit false

namespace AnnotatedSource

inductive TokenKind where
  | boolean
  | identifier
  | privateIdentifier
  | keyword
  | null
  | numeric
  | punctuator
  | regularExpression
  | string
  | template
  | jsxIdentifier
  | jsxText
  | line
  | block
  | shebang
deriving DecidableEq

namespace TokenKind

def all : List TokenKind :=
  [.boolean, .identifier, .privateIdentifier, .keyword, .null, .numeric, .punctuator,
   .regularExpression, .string, .template, .jsxIdentifier, .jsxText, .line, .block, .shebang]

def name : TokenKind → String
  | .boolean => "Boolean"
  | .identifier => "Identifier"
  | .privateIdentifier => "PrivateIdentifier"
  | .keyword => "Keyword"
  | .null => "Null"
  | .numeric => "Numeric"
  | .punctuator => "Punctuator"
  | .regularExpression => "RegularExpression"
  | .string => "String"
  | .template => "Template"
  | .jsxIdentifier => "JSXIdentifier"
  | .jsxText => "JSXText"
  | .line => "Line"
  | .block => "Block"
  | .shebang => "Shebang"

def ofName? (name : String) : Option TokenKind :=
  all.find? fun kind => kind.name == name

def isComment : TokenKind → Bool
  | .line | .block | .shebang => true
  | _ => false

end TokenKind

/-- A token: its kind, its text without comment marks, and where it stands. -/
structure Token where
  kind : TokenKind
  value : String
  span : Span
  loc : Location
deriving DecidableEq

def Token.isComment (token : Token) : Bool := token.kind.isComment

end AnnotatedSource
