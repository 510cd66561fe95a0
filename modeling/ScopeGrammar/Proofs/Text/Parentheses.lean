import ScopeGrammar.Proofs.Text.Lines
import ScopeGrammar.Scan.Token

set_option autoImplicit false

namespace ScopeGrammar.Text

open Scan (byteSize byteSize_append)

def depthBehind (depth : Nat) (c : Char) : Nat :=
  if c = '(' then depth + 1 else if c = ')' then depth - 1 else depth

/-- The number of open parentheses behind a text. Before its first character `depth` are open. -/
def depthAfter (depth : Nat) (cs : List Char) : Nat := cs.foldl depthBehind depth

/-- The lines and columns of the closing parentheses without an opening one. Columns count encoded
bytes. -/
def strays (line column depth : Nat) : List Char → List (Nat × Nat)
  | [] => []
  | c :: rest =>
    let here := if c = ')' && depth = 0 then [(line, column)] else []
    let later :=
      if c = '\n' then strays (line + 1) 0 depth rest
      else strays line (column + c.utf8Size) (depthBehind depth c) rest
    here ++ later

/-- Texts in which every parenthesis has its partner. -/
inductive Balanced : List Char → Prop where
  | nil : Balanced []
  | plain {c : Char} {rest : List Char} :
    c ≠ '(' → c ≠ ')' → Balanced rest → Balanced (c :: rest)
  | group {inner rest : List Char} :
    Balanced inner → Balanced rest → Balanced ('(' :: inner ++ ')' :: rest)

def Unbracketed (cs : List Char) : Prop := '(' ∉ cs ∧ ')' ∉ cs

@[simp] theorem depthAfter_nil (depth : Nat) : depthAfter depth [] = depth := rfl

@[simp] theorem depthAfter_cons (depth : Nat) (c : Char) (rest : List Char) :
    depthAfter depth (c :: rest) = depthAfter (depthBehind depth c) rest := rfl

@[simp] theorem depthAfter_append (depth : Nat) (s t : List Char) :
    depthAfter depth (s ++ t) = depthAfter (depthAfter depth s) t := by
  simp [depthAfter]

theorem depthBehind_of_ne {depth : Nat} {c : Char} (notOpen : c ≠ '(') (notClose : c ≠ ')') :
    depthBehind depth c = depth := by
  simp [depthBehind, notOpen, notClose]

theorem depthAfter_of_unbracketed {cs : List Char} (plain : Unbracketed cs) (depth : Nat) :
    depthAfter depth cs = depth := by
  induction cs with
  | nil => rfl
  | cons c rest ih =>
    simp only [Unbracketed, List.mem_cons, not_or] at plain
    rw [depthAfter_cons, depthBehind_of_ne (Ne.symm plain.1.1) (Ne.symm plain.2.1)]
    exact ih ⟨plain.1.2, plain.2.2⟩

theorem strays_append {s : List Char} (inLine : '\n' ∉ s) (line column depth : Nat)
    (t : List Char) :
    strays line column depth (s ++ t) =
      strays line column depth s ++ strays line (column + byteSize s) (depthAfter depth s) t := by
  induction s generalizing column depth with
  | nil => simp [strays, byteSize]
  | cons c rest ih =>
    simp only [List.mem_cons, not_or] at inLine
    simp only [List.cons_append, strays, if_neg (Ne.symm inLine.1), ih inLine.2, depthAfter_cons,
      List.append_assoc]
    congr 3
    simp [byteSize, Nat.add_assoc]

theorem strays_of_unbracketed {cs : List Char} (inLine : '\n' ∉ cs) (plain : Unbracketed cs)
    (line column depth : Nat) : strays line column depth cs = [] := by
  induction cs generalizing column depth with
  | nil => rfl
  | cons c rest ih =>
    simp only [Unbracketed, List.mem_cons, not_or] at plain inLine
    simp [strays, Ne.symm inLine.1, Ne.symm plain.2.1,
      ih inLine.2 ⟨plain.1.2, plain.2.2⟩]

theorem strays_newline (line column depth : Nat) (rest : List Char) :
    strays line column depth ('\n' :: rest) = strays (line + 1) 0 depth rest := by
  simp [strays]

theorem Balanced.depthAfter {cs : List Char} (balanced : Balanced cs) (depth : Nat) :
    depthAfter depth cs = depth := by
  induction balanced generalizing depth with
  | nil => rfl
  | plain notOpen notClose _ ih => rw [depthAfter_cons, depthBehind_of_ne notOpen notClose, ih]
  | group _ _ ihInner ihRest =>
    simp only [List.cons_append, depthAfter_cons, depthAfter_append, ihInner, ihRest]
    simp [depthBehind]

end ScopeGrammar.Text
