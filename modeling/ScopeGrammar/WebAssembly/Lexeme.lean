import ScopeGrammar.Fragment.Basic

/-!
The lexemes of the WebAssembly text format as fragments. Identifiers and keywords are made of the
same characters, so a keyword is bounded by these and not by the edges of ordinary words: there is
no keyword `func` in `$func`, `funcs` or `my.func`.
-/

set_option autoImplicit false

namespace ScopeGrammar.WebAssembly

open Fragment

def leftParenthesis : Fragment := .ofString "\\("
def rightParenthesis : Fragment := .ofString "\\)"
def quote : Fragment := .ofString "\""
def dot : Fragment := .ofString "\\."
def atSign : Fragment := .ofString "@"
def lineComment : Fragment := .ofString ";;"
def blockCommentStart : Fragment := .ofString "\\(;"
def blockCommentEnd : Fragment := .ofString ";\\)"

def blockComment : Fragment := .ofString "\\(;.*?;\\)"

def blank : Fragment := .ofString "[ \\t]"
def lineEnd : Fragment := .ofString "$"

def idChar : Fragment := .ofString "[0-9A-Za-z!#$%&'*+\\-./:<=>?@\\\\^_\x60|~]"

/-- An escape in a string: a letter or sign, two hexadecimal digits, or digits in braces. -/
def escape : Fragment :=
  .ofString "\\\\(?:[0-9a-fA-F]\x7b2\x7d|u\\\x7b[0-9a-fA-F]+\\\x7d|[tnr\"'\\\\])"

def hexNumber : Fragment := .ofString "0x[0-9a-fA-F](?:_?[0-9a-fA-F])*"
def number : Fragment := .ofString "[0-9](?:_?[0-9])*"

/-- The keywords that the grammar knows, apart from the value types. -/
inductive Keyword where
  | module
  | type
  | func
  | param
  | result
  | imports
  | exports
  | table
  | memory
  | global
  | mutable
  | start
  | elem
  | data
  | funcref
  | const
  deriving DecidableEq, Repr

namespace Keyword

def all : List Keyword :=
  [module, type, func, param, result, imports, exports, table, memory, global, mutable, start, elem,
    data, funcref, const]

def text : Keyword → String
  | .module => "module"
  | .type => "type"
  | .func => "func"
  | .param => "param"
  | .result => "result"
  | .imports => "import"
  | .exports => "export"
  | .table => "table"
  | .memory => "memory"
  | .global => "global"
  | .mutable => "mut"
  | .start => "start"
  | .elem => "elem"
  | .data => "data"
  | .funcref => "funcref"
  | .const => "const"

def letters (k : Keyword) : Fragment := .ofString k.text

theorem mem_all (k : Keyword) : k ∈ all := by cases k <;> decide

end Keyword

def valueTypes : List String := ["i32", "i64", "f32", "f64"]

def keyword (word : Fragment) : Fragment := wholeWord word idChar

def lastKeyword (word : Fragment) : Fragment := lastWholeWord word idChar

def identifier : Fragment := sequence [.ofString "\\$", oneOrMore idChar]

/-- An unsigned integer; the hexadecimal form comes first, so that `0x1` does not end behind `0`. -/
def unsignedInteger : Fragment := keyword (alternative [hexNumber, number])

def index : Fragment := alternative [unsignedInteger, identifier]

def valueType : Fragment := keyword (alternative (valueTypes.map .ofString))

end ScopeGrammar.WebAssembly
