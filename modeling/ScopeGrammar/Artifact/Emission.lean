import ScopeGrammar.Artifact.Json
import ScopeGrammar.Artifact.Yaml

set_option autoImplicit false

namespace ScopeGrammar

namespace Artifact

/-- The artifact of a repository; what the settings say about the grammar replaces what it says
itself. -/
def ofRepository (m : Overrides) (r : Repository) : Artifact where
  name := m.name.getD r.metadata.name
  scopeName := m.scopeName.getD r.metadata.scopeName
  fileTypes := m.fileTypes.getD r.metadata.fileTypes
  patterns := Item.ofPatterns r.entry
  repository := r.rules.map fun _ rule => Item.ofRule rule

/-- The text of an outline in a format; only JSON has a compact form. -/
def print (format : Format) (pretty : Bool) (o : Outline) : String :=
  match format, pretty with
  | .json, false => Json.print .compact o
  | .json, true => Json.print .indented o
  | .yaml, _ => Yaml.print o

end Artifact

/-- The text of a repository's artifact. A scope name from the settings has not been checked before. -/
def Repository.emit (r : Repository) (s : Settings) : Except Defect String := do
  checkScope (.top .setting) s.overrides.scopeName
  return Artifact.print s.format s.pretty (Artifact.ofRepository s.overrides r).outline

end ScopeGrammar
