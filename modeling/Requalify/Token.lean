import Requalify.Text.Offset

/-! Tokens of a C++ text, with their places. -/

namespace Requalify

inductive TokenKind where
  | identifier
  | keyword
  /-- The separator `::`. -/
  | scope
  | punctuator
  | number
  /-- A string or character with its marks and suffix. -/
  | literal
  deriving DecidableEq, Inhabited

structure Token where
  kind : TokenKind
  text : String
  start : Nat
  deriving DecidableEq, Inhabited

namespace Token

def stop (token : Token) : Nat :=
  token.start + Text.byteLength token.text.toList

def span (token : Token) : Span where
  start := token.start
  stop := token.stop
  start_le_stop := Nat.le_add_right ..

def isIdentifier (token : Token) : Bool :=
  token.kind == .identifier

def isScope (token : Token) : Bool :=
  token.kind == .scope

def isPunctuator (token : Token) (text : String) : Bool :=
  token.kind == .punctuator && token.text == text

def isKeyword (token : Token) (text : String) : Bool :=
  token.kind == .keyword && token.text == text

theorem kind_of_isPunctuator {token : Token} {text : String}
    (isMark : token.isPunctuator text = true) : token.kind = .punctuator := by
  simp only [isPunctuator, Bool.and_eq_true, beq_iff_eq] at isMark
  exact isMark.1

theorem not_isPunctuator_of_isPunctuator {token : Token} {text other : String}
    (isMark : token.isPunctuator text = true) (different : text ≠ other) :
    token.isPunctuator other = false := by
  simp only [isPunctuator, Bool.and_eq_true, beq_iff_eq] at isMark
  simp [isPunctuator, isMark.2, different]

theorem kind_of_isIdentifier {token : Token} (isName : token.isIdentifier = true) :
    token.kind = .identifier := by
  simpa [isIdentifier] using isName

theorem kind_of_isScope {token : Token} (isSeparator : token.isScope = true) :
    token.kind = .scope := by
  simpa [isScope] using isSeparator

theorem not_isScope_of_isIdentifier {token : Token} (isName : token.isIdentifier = true) :
    token.isScope = false := by
  simp [isScope, kind_of_isIdentifier isName]

theorem not_isPunctuator {token : Token} (other : token.kind ≠ .punctuator) (text : String) :
    token.isPunctuator text = false := by
  simp [isPunctuator, other]

end Token

def keywords : List String :=
  ["alignas", "alignof", "and", "and_eq", "asm", "auto", "bitand", "bitor", "bool", "break",
    "case", "catch", "char", "char8_t", "char16_t", "char32_t", "class", "compl", "concept",
    "const", "consteval", "constexpr", "constinit", "const_cast", "continue", "co_await",
    "co_return", "co_yield", "decltype", "default", "delete", "do", "double", "dynamic_cast",
    "else", "enum", "explicit", "export", "extern", "false", "final", "float", "for", "friend",
    "goto", "if", "inline", "int", "long", "mutable", "namespace", "new", "noexcept", "not",
    "not_eq", "nullptr", "operator", "or", "or_eq", "override", "private", "protected",
    "public", "register", "reinterpret_cast", "requires", "return", "short", "signed",
    "sizeof", "static", "static_assert", "static_cast", "struct", "switch", "template", "this",
    "thread_local", "throw", "true", "try", "typedef", "typeid", "typename", "union",
    "unsigned", "using", "virtual", "void", "volatile", "wchar_t", "while", "xor", "xor_eq"]

/-- Keywords that name a type, so that a declared name may follow them. -/
def typeKeywords : List String :=
  ["auto", "bool", "char", "char8_t", "char16_t", "char32_t", "double", "float", "int", "long",
    "short", "signed", "unsigned", "void", "wchar_t"]

end Requalify
