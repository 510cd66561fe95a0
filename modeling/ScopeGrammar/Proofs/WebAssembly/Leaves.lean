import ScopeGrammar.Proofs.Regex.Groups
import ScopeGrammar.Proofs.Scan.Found
import ScopeGrammar.Proofs.Scan.Known
import ScopeGrammar.Proofs.WebAssembly.Grammar
import ScopeGrammar.Proofs.WebAssembly.Lexemes

/-!
What holds of all leaves of the grammar: their patterns can be read, and only the rule of unexpected
parentheses gives the scope of these. In texts without quotes and semicolons every leaf is one of
four: a match rule that reads no parenthesis, the rule of unexpected parentheses, a region that
cannot be entered, or a region between an opening parenthesis and a closing one.
-/

set_option autoImplicit false

namespace ScopeGrammar.WebAssembly

open Scan

def loud : List Char := ['"', ';']

def brackets : List Char := ['(', ')', '\n']

def unexpected : String := "invalid.illegal.unexpected-paren.wasm"

def readsAround (rule : MatchRule) : Bool :=
  hasTree rule.pattern fun tree => tree.avoids loud brackets && !tree.nullable

def isUnexpected (rule : MatchRule) : Bool :=
  rule.pattern = rightParenthesis && rule.scope = some unexpected && rule.captures.isEmpty

/-- Whether the region reads one parenthesis where it begins and one where it ends, and can be
entered anew inside. -/
def isRound (site : Site) (region : Region) (children : List Pattern) : Bool :=
  hasTree region.opening (·.opens loud brackets '(') && region.closing = rightParenthesis &&
    (candidates table site children).any fun c => c.leaf.pattern = leftParenthesis

def suits : Leaf → Bool
  | .single rule => readsAround rule || isUnexpected rule
  | .region site region children =>
    hasTree region.opening (·.needs loud) || isRound site region children

def patternsOf : Leaf → List Fragment
  | .single rule => [rule.pattern]
  | .region _ region _ => [region.opening, region.closing]

def isStray : Leaf → Bool
  | .single rule => isUnexpected rule
  | .region _ _ _ => false

def passes (leaf : Leaf) : Bool :=
  suits leaf && (patternsOf leaf).all (hasTree · (·.groupsRead)) &&
    (isStray leaf || leaf.tags.all (lacksName unexpected))

def delimits (f : Fragment) : Bool :=
  (candidates table (.top .entry) entry).any fun c => c.leaf.pattern = f

/-- One check for the whole grammar, so that its rules are read once. -/
theorem grammar_passes :
    (leaves grammar).all passes = true ∧
      delimits leftParenthesis = true ∧ delimits rightParenthesis = true := by
  decide +kernel

section

variable {leaf : Leaf} (member : leaf ∈ leaves grammar)

include member

theorem passes_of_mem :
    (suits leaf = true ∧ ∀ f ∈ patternsOf leaf, hasTree f (·.groupsRead) = true) ∧
      (isStray leaf = true ∨ Unmarked unexpected leaf.tags) := by
  have passed := List.all_eq_true.1 grammar_passes.1 leaf member
  simp only [passes, Bool.and_eq_true, Bool.or_eq_true, List.all_eq_true] at passed
  exact passed

theorem suits_of_mem : suits leaf = true := (passes_of_mem member).1.1

theorem unmarked_of_mem (other : isStray leaf = false) : Unmarked unexpected leaf.tags := by
  rcases (passes_of_mem member).2 with stray | unmarked
  · simp [stray] at other
  · exact unmarked

theorem searchIn_of_mem {f : Fragment} (one : f ∈ patternsOf leaf) (text : List Char) (pos : Nat) :
    ∃ result, searchIn text f pos = .ok result := by
  have has := (passes_of_mem member).1.2 f one
  obtain ⟨tree, read, -⟩ := exists_tree has
  exact searchIn_ok read

end

/-- All that is searched for belongs to a leaf. -/
theorem leaf_of_offer {stack : List Frame} (known : Known grammar stack) {o : Offer}
    (offered : o ∈ offers grammar.rules (context grammar stack)) :
    ∃ leaf ∈ leaves grammar, o.pattern ∈ patternsOf leaf := by
  rcases offers_cases offered with ⟨-, closing⟩ | ⟨⟨leaf, names⟩, there, -, same⟩
  · cases stack with
    | nil => simp [context] at closing
    | cons frame outer =>
      simp only [context, Option.some.injEq] at closing
      exact ⟨frame.leaf, known frame (by simp), by simp [patternsOf, Frame.leaf, closing]⟩
  · refine ⟨leaf, context_candidate known _ there, ?_⟩
    rw [same]
    cases leaf <;> simp [patternsOf, Leaf.pattern]

theorem choose_answers {stack : List Frame} (known : Known grammar stack) (text : List Char)
    (pos : Nat) :
    ∃ result, choose (searchIn text) grammar.rules (context grammar stack) pos = .ok result := by
  refine choose_ok fun o offered => ?_
  obtain ⟨leaf, member, one⟩ := leaf_of_offer known offered
  exact searchIn_of_mem member one text pos

theorem offers_groupsRead {stack : List Frame} (known : Known grammar stack) :
    ∀ o ∈ offers grammar.rules (context grammar stack), hasTree o.pattern (·.groupsRead) = true := by
  intro o offered
  obtain ⟨leaf, member, one⟩ := leaf_of_offer known offered
  exact (passes_of_mem member).1.2 _ one

def isRegion (check : Region → List Pattern → Bool) : Rule → Bool
  | .region region children => check region children
  | .single _ | .anyOf _ => false

theorem checked_of_registered {name : String} {check : Region → List Pattern → Bool}
    (registered : (table.get? name).any (isRegion check) = true) {region : Region}
    {children : List Pattern}
    (known : .region (.top (.rule name)) region children ∈ leaves grammar) :
    check region children = true := by
  obtain ⟨rule, held, is⟩ := (Option.any_eq_true _ _).1 registered
  cases rule with
  | region other others =>
    have there : .region (.top (.rule name)) other others ∈ leaves grammar :=
      patternLeaves_subset (r := grammar) held (by simp)
    obtain ⟨rfl, rfl⟩ := region_unique known there
    exact is
  | single | anyOf => simp [isRegion] at is

theorem offered_of_candidate (ctx : Context) {f : Fragment}
    (any : (candidates table ctx.site ctx.children).any (fun c => c.leaf.pattern = f) = true) :
    ∃ o ∈ offers grammar.rules ctx, o.pattern = f := by
  obtain ⟨c, member, same⟩ := List.any_eq_true.1 any
  refine ⟨⟨.apply c, c.leaf.pattern⟩, ?_, of_decide_eq_true same⟩
  exact List.mem_append_right _ (List.mem_map.2 ⟨c, member, rfl⟩)

structure RoundRegion (site : Site) (region : Region) (children : List Pattern) : Prop where
  opening : hasTree region.opening (·.opens loud brackets '(') = true
  closing : region.closing = rightParenthesis
  opener : ((candidates table site children).any fun c => c.leaf.pattern = leftParenthesis) = true

theorem roundRegion_of_isRound {site : Site} {region : Region} {children : List Pattern}
    (round : isRound site region children = true) : RoundRegion site region children := by
  simp only [isRound, Bool.and_eq_true, decide_eq_true_eq] at round
  exact ⟨round.1.1, round.1.2, round.2⟩

theorem root_unmarked : lacksName unexpected grammar.metadata.scopeName = true := by decide

theorem root_opener : delimits leftParenthesis = true := grammar_passes.2.1

theorem root_closer : delimits rightParenthesis = true := grammar_passes.2.2

end ScopeGrammar.WebAssembly
