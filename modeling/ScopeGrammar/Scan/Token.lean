import ScopeGrammar.Text.Basic

set_option autoImplicit false

namespace ScopeGrammar.Scan

structure Token where
  line : Nat
  /-- The place of the piece in its line, in encoded bytes. -/
  start : Nat
  stop : Nat
  text : String
  scopes : List String
  /-- The registered rules that the piece belongs to, from the outermost on. -/
  rules : List String
  deriving DecidableEq, Repr

/-- Whether one of the token's scopes has the name among its names. -/
def Token.hasScope (t : Token) (name : String) : Bool :=
  t.scopes.any fun scope => (Text.splitAt ' ' scope.toList).contains name.toList

def Token.hasRule (t : Token) (name : String) : Bool := t.rules.contains name

structure Result where
  tokens : List Token
  /-- The regions open at the end, from the outermost on. -/
  openRegions : List String
  /-- The lines that were given up because nothing moved on. -/
  stalledLines : List Nat
  deriving DecidableEq, Repr

namespace Result

def isClosed (r : Result) : Bool := r.openRegions.isEmpty && r.stalledLines.isEmpty

def tokensWithText (r : Result) (text : String) : List Token :=
  r.tokens.filter (·.text = text)

def tokensWithScope (r : Result) (scope : String) : List Token :=
  r.tokens.filter (·.hasScope scope)

end Result

def byteSize : List Char → Nat
  | [] => 0
  | c :: rest => c.utf8Size + byteSize rest

@[simp] theorem byteSize_append (s t : List Char) : byteSize (s ++ t) = byteSize s + byteSize t := by
  induction s with
  | nil => simp [byteSize]
  | cons c rest ih => simp [byteSize, ih, Nat.add_assoc]

end ScopeGrammar.Scan
