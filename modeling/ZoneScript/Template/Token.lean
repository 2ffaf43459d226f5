import ZoneScript.Text.Space
import ZoneScript.Text.Split

/-!
# Template tokens

A token is a name between double braces, such as `{{name}}`; white space may stand on either side of
the name. A text is a list of pieces, tokens and the characters between them, and a substitution
replaces some of the tokens.
-/

namespace ZoneScript.Template

open Text

/-! ## Names -/

def isNameStart (c : Char) : Bool :=
  c.isAlpha || c == '_'

def isNameChar (c : Char) : Bool :=
  c.isAlphanum || c == '_' || c == '-'

/-- Whether a text is the name of a variable. -/
def isName : List Char → Bool
  | [] => false
  | c :: cs => isNameStart c && (c :: cs).all isNameChar

/-- Inside a loop, stands for the value that the loop has come to. -/
def itemName : String := "item"

/-- Inside a rule group, stands for the address that matches every host. -/
def anyName : String := "any"

/-- Whether a name has a meaning of its own, so that no variable can have it. -/
def isReserved (name : String) : Bool :=
  name == itemName || name == anyName

/-! ## Pieces -/

def opening : List Char := ['\x7b', '\x7b']

def closing : List Char := ['\x7d', '\x7d']

/-- The token at the start of a text, as its name and the text after it. -/
def tokenAt? (cs : List Char) : Option (List Char × List Char) :=
  (dropHead? opening cs).bind fun inner =>
    let inner := trimStart inner
    let name := inner.takeWhile isNameChar
    if isName name then
      (dropHead? closing (trimStart (inner.dropWhile isNameChar))).map fun rest => (name, rest)
    else none

theorem length_rest_lt {cs name rest : List Char} (h : tokenAt? cs = some (name, rest)) :
    rest.length < cs.length := by
  simp only [tokenAt?, Option.bind_eq_some_iff] at h
  obtain ⟨inner, h₁, h⟩ := h
  have h₁ := dropHead?_eq_some.mp h₁
  split at h
  · obtain ⟨r, h₂, h₃⟩ := Option.map_eq_some_iff.mp h
    have h₂ := dropHead?_eq_some.mp h₂
    obtain rfl : r = rest := (Prod.mk.injEq .. ▸ h₃).2
    have h₄ := congrArg List.length h₂
    have h₅ : (trimStart ((trimStart inner).dropWhile isNameChar)).length ≤ inner.length :=
      ((List.dropWhile_sublist _).trans
        ((List.dropWhile_sublist _).trans (List.dropWhile_sublist _))).length_le
    rw [h₁]
    simp only [List.length_append, opening, closing, List.length_cons, List.length_nil] at h₄ ⊢
    omega
  · simp at h

/-- A part of a text: a character, or a token with the characters that write it. -/
inductive Piece where
  | char (c : Char)
  | token (written name : List Char)
  deriving DecidableEq, Repr, Inhabited

/-- The pieces of a text, with the tokens as far in front as they can be. -/
def pieces : List Char → List Piece
  | [] => []
  | c :: cs =>
    match _h : tokenAt? (c :: cs) with
    | some (name, rest) =>
      .token ((c :: cs).take ((c :: cs).length - rest.length)) name :: pieces rest
    | none => .char c :: pieces cs
termination_by cs => cs.length
decreasing_by
  · exact length_rest_lt _h
  · simp

/-! ## Substitution -/

/-- The names of the tokens in a text, in order. -/
def tokenNames (text : String) : List String :=
  (pieces text.toList).filterMap fun
    | .char _ => none
    | .token _ name => some (.ofList name)

/-- The text with each token replaced that `f` has a text for. Replacements are not looked at
again. -/
def replaceTokens (f : String → Option String) (text : String) : String :=
  .ofList <| (pieces text.toList).flatMap fun
    | .char c => [c]
    | .token written name => ((f (.ofList name)).map String.toList).getD written

/-- The text with one name replaced. -/
def replaceName (name value text : String) : String :=
  replaceTokens (fun n => if n == name then some value else none) text

/-! ## Loops -/

/-- The variable that a loop names: by its name alone, or by a token that is the whole text. -/
def loopTarget? (directive : String) : Option String :=
  let whole := trim directive.toList
  let name := match (dropHead? opening whole).bind (dropTail? closing) with
    | some inner => trim inner
    | none => whole
  if isName name then some (.ofList name) else none

end ZoneScript.Template
