import ScopeGrammar.Scan.Token
import ScopeGrammar.Text.Quoted

set_option autoImplicit false

namespace ScopeGrammar.Scan

inductive TokenCheck where
  | hasScope (name : String)
  | lacksScope (name : String)
  | inRule (name : String)
  | notInRule (name : String)
  | at (line start : Nat)
  deriving DecidableEq, Repr

inductive Check where
  | closed
  | openRegions (expected : List String)
  | someScope (name : String)
  | noScope (name : String)
  /-- The `index`th token with the text has the properties. -/
  | token (text : String) (index : Nat) (checks : List TokenCheck)
  deriving DecidableEq, Repr

inductive Failure where
  | notClosed (openRegions : List String) (stalledLines : List Nat)
  | otherOpenRegions (found expected : List String)
  | noToken (text : String) (index : Nat) (tokens : List Token)
  | noTagged (scope : String) (tokens : List Token)
  | tagged (scope : String) (texts : List String)
  | lacks (token : Token) (scope : String)
  | has (token : Token) (scope : String)
  | outside (token : Token) (rule : String)
  | inside (token : Token) (rule : String)
  | elsewhere (token : Token) (line start : Nat)
  deriving DecidableEq, Repr

def Token.check (t : Token) : TokenCheck → Except Failure Unit
  | .hasScope name => if t.hasScope name then .ok () else .error (.lacks t name)
  | .lacksScope name => if t.hasScope name then .error (.has t name) else .ok ()
  | .inRule name => if t.hasRule name then .ok () else .error (.outside t name)
  | .notInRule name => if t.hasRule name then .error (.inside t name) else .ok ()
  | .at line start => if t.line = line && t.start = start then .ok () else .error (.elsewhere t line start)

def Token.checkAll (t : Token) : List TokenCheck → Except Failure Unit
  | [] => .ok ()
  | c :: rest => do
    t.check c
    t.checkAll rest

def Result.check (r : Result) : Check → Except Failure Unit
  | .closed => if r.isClosed then .ok () else .error (.notClosed r.openRegions r.stalledLines)
  | .openRegions expected =>
    if r.openRegions = expected then .ok () else .error (.otherOpenRegions r.openRegions expected)
  | .someScope name =>
    if (r.tokensWithScope name).isEmpty then .error (.noTagged name r.tokens) else .ok ()
  | .noScope name =>
    let tagged := r.tokensWithScope name
    if tagged.isEmpty then .ok () else .error (.tagged name (tagged.map (·.text)))
  | .token text index checks =>
    match (r.tokensWithText text)[index]? with
    | none => .error (.noToken text index r.tokens)
    | some token => token.checkAll checks

/-- A token in one line: its text, its place and its scopes. -/
def Token.summary (t : Token) : String :=
  Text.quote t.text ++ "@" ++ toString t.line ++ ":" ++ toString t.start ++ " " ++
    String.intercalate " > " t.scopes

def unequal (what left right : String) : String :=
  "assertion \x60left == right\x60 failed: " ++ what ++ "\n  left: " ++ left ++ "\n right: " ++ right

def placeText (line start : Nat) : String :=
  "(" ++ toString line ++ ", " ++ toString start ++ ")"

def Failure.message : Failure → String
  | .notClosed openRegions stalledLines =>
    "Expected a closed scan, open regions: " ++ Text.quoteList openRegions ++
      ", stalled lines: " ++ Text.bracketed (stalledLines.map toString)
  | .otherOpenRegions found expected =>
    unequal "Unexpected open regions" (Text.quoteList found) (Text.quoteList expected)
  | .noToken text index tokens =>
    "No token #" ++ toString index ++ " with text " ++ Text.quote text ++ "; tokens: " ++
      Text.quoteList (tokens.map Token.summary)
  | .noTagged scope tokens =>
    "No token tagged " ++ Text.quote scope ++ "; tokens: " ++
      Text.quoteList (tokens.map Token.summary)
  | .tagged scope texts =>
    "Unexpected " ++ Text.quote scope ++ " tokens: " ++ Text.quoteList texts
  | .lacks token scope =>
    "Token " ++ Text.quote token.text ++ " lacks scope " ++ Text.quote scope ++ ": " ++
      Text.quoteList token.scopes
  | .has token scope =>
    "Token " ++ Text.quote token.text ++ " unexpectedly has scope " ++ Text.quote scope
  | .outside token rule =>
    "Token " ++ Text.quote token.text ++ " not produced within rule " ++ Text.quote rule ++ ": " ++
      Text.quoteList token.rules
  | .inside token rule =>
    "Token " ++ Text.quote token.text ++ " unexpectedly within rule " ++ Text.quote rule ++ ": " ++
      Text.quoteList token.rules
  | .elsewhere token line start =>
    unequal ("Token " ++ Text.quote token.text ++ " at unexpected position")
      (placeText token.line token.start) (placeText line start)

end ScopeGrammar.Scan
