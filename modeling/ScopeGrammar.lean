import ScopeGrammar.Artifact.Emission
import ScopeGrammar.Artifact.Reader
import ScopeGrammar.Repository.Reachable
import ScopeGrammar.Scan.Check
import ScopeGrammar.Scan.Source
import ScopeGrammar.Settings.Layer
import ScopeGrammar.WebAssembly.Grammar
import ScopeGrammar.Proofs.Table
import ScopeGrammar.Proofs.Repository.Parts
import ScopeGrammar.Proofs.Repository.Defects
import ScopeGrammar.Proofs.Text.Lines
import ScopeGrammar.Proofs.Text.Parentheses
import ScopeGrammar.Proofs.Regex.Ways
import ScopeGrammar.Proofs.Regex.Find
import ScopeGrammar.Proofs.Regex.Criteria
import ScopeGrammar.Proofs.Regex.Sight
import ScopeGrammar.Proofs.Regex.Groups
import ScopeGrammar.Proofs.Scan.Choice
import ScopeGrammar.Proofs.Scan.Step
import ScopeGrammar.Proofs.Scan.Ends
import ScopeGrammar.Proofs.Scan.Search
import ScopeGrammar.Proofs.Scan.Tokens
import ScopeGrammar.Proofs.Scan.Found
import ScopeGrammar.Proofs.Scan.Leaf
import ScopeGrammar.Proofs.Scan.Known
import ScopeGrammar.Proofs.Scan.Stall
import ScopeGrammar.Proofs.Scan.Reached
import ScopeGrammar.Proofs.Scan.GivenUp
import ScopeGrammar.Proofs.Scan.Enclosing
import ScopeGrammar.Proofs.Scan.Carrying
import ScopeGrammar.Proofs.WebAssembly.Grammar
import ScopeGrammar.Proofs.WebAssembly.Reader
import ScopeGrammar.Proofs.WebAssembly.Lexemes
import ScopeGrammar.Proofs.WebAssembly.Leaves
import ScopeGrammar.Proofs.WebAssembly.Parentheses
import ScopeGrammar.Proofs.WebAssembly.Areas
import ScopeGrammar.Proofs.WebAssembly.Nesting
import ScopeGrammar.Proofs.WebAssembly.Simulation
import ScopeGrammar.Proofs.WebAssembly.Words
import ScopeGrammar.Proofs.WebAssembly.Forms
import ScopeGrammar.Proofs.WebAssembly.Balance
import ScopeGrammar.Proofs.Result
import ScopeGrammar.Proofs.Repository.Reachable
import ScopeGrammar.Proofs.Scan.Reach
import ScopeGrammar.Proofs.Scan.Expansion
import ScopeGrammar.Proofs.Json.Quoted
import ScopeGrammar.Proofs.Json.Printing
import ScopeGrammar.Proofs.Json.Decoding
import ScopeGrammar.Proofs.Artifact.Recovery
import ScopeGrammar.Proofs.Artifact.Written
import ScopeGrammar.Proofs.Artifact.RoundTrip
import ScopeGrammar.Proofs.Regex.Flat
import ScopeGrammar.Proofs.Regex.Consumed
import ScopeGrammar.Proofs.Regex.Lexeme
import ScopeGrammar.Proofs.Regex.Pile
import ScopeGrammar.Proofs.Regex.Placing
import ScopeGrammar.Proofs.Regex.Joining
import ScopeGrammar.Proofs.Fragment.Closing
import ScopeGrammar.Proofs.Fragment.Structure
import ScopeGrammar.Proofs.Fragment.Combining
import ScopeGrammar.Proofs.Fragment.Standalone
import ScopeGrammar.Proofs.Fragment.Expression
import ScopeGrammar.Proofs.Artifact.Closed
import ScopeGrammar.Proofs.Scan.Tiling
import ScopeGrammar.Proofs.WebAssembly.Keywords
import ScopeGrammar.Proofs.Repository.Registering
import ScopeGrammar.Proofs.Repository.Renaming
import ScopeGrammar.Proofs.Scan.Renaming
import ScopeGrammar.Proofs.WebAssembly.Strings
import ScopeGrammar.Proofs.Scan.Crossing
import ScopeGrammar.Proofs.WebAssembly.Sealing
import ScopeGrammar.Proofs.Regex.Edges
import ScopeGrammar.Proofs.Scan.Answered
import ScopeGrammar.Proofs.Scan.Readable
import ScopeGrammar.Proofs.Text.Bytes
import ScopeGrammar.Proofs.Regex.Rounds
import ScopeGrammar.Proofs.Repository.Chains
import ScopeGrammar.Proofs.Repository.Sweep
import ScopeGrammar.Proofs.WebAssembly.Openings
import ScopeGrammar.Proofs.WebAssembly.Escapes
import ScopeGrammar.Proofs.WebAssembly.Literals
import ScopeGrammar.Proofs.WebAssembly.LiteralTokens
import ScopeGrammar.Proofs.Settings.Paths
import ScopeGrammar.Proofs.Settings.Putting
import ScopeGrammar.Proofs.Settings.Overriding
import ScopeGrammar.Proofs.Settings.Layering
import ScopeGrammar.Proofs.Settings.Rearranging
import ScopeGrammar.Proofs.WebAssembly.Fields
import ScopeGrammar.Proofs.WebAssembly.LineComments
import ScopeGrammar.Proofs.WebAssembly.Separators
import ScopeGrammar.Proofs.WebAssembly.ImportPlaces
import ScopeGrammar.Proofs.WebAssembly.ImportNames
import ScopeGrammar.Proofs.Regex.Advancing
import ScopeGrammar.Proofs.Regex.Matches
import ScopeGrammar.Proofs.Fragment.Literals
import ScopeGrammar.Proofs.Fragment.Classes
import ScopeGrammar.Proofs.Fragment.WholeWords
import ScopeGrammar.Proofs.WebAssembly.Integers
import ScopeGrammar.Proofs.Scan.Mirror
import ScopeGrammar.Proofs.Scan.Relisting
import ScopeGrammar.Fragment.Encoded
import ScopeGrammar.Proofs.Repository.Locations
import ScopeGrammar.Proofs.Fragment.Balanced
import ScopeGrammar.Proofs.Fragment.Algebra
import ScopeGrammar.Proofs.Fragment.EncodedClass
import ScopeGrammar.Proofs.Fragment.Encoded
import ScopeGrammar.Proofs.Json.Numerals
import ScopeGrammar.Proofs.Json.Members
import ScopeGrammar.Proofs.Json.Spelling
import ScopeGrammar.Proofs.Artifact.Layout
