/-
# LoxSyntax.Token.Sequence -- lists of tokens that end with the end of the input

A reader of tokens needs an end to stop at. A `Sequence` is a list whose last token is an end of the
input; tokens of that kind may stand earlier in it as well. Looking past the last token gives the last
token again, and looking back from the first one also gives the last.
-/
import LoxSyntax.Token.Basic

namespace LoxSyntax

/-- A list of tokens that is closed by an end of the input. -/
structure Sequence where
  body : List Token
  last : Token
  last_isEnd : last.isEnd = true

namespace Sequence

/-- All the tokens, the last one included. -/
def toList (s : Sequence) : List Token := s.body ++ [s.last]

/-- What is said of a list of tokens that is not closed. -/
def unclosedMessage : String := "token list must end with an EOF token"

/-- A list of tokens as a sequence, if an end of the input closes it. -/
def ofList? (tokens : List Token) : Option Sequence :=
  match tokens.getLast? with
  | none => none
  | some last => if h : last.isEnd = true then some ⟨tokens.dropLast, last, h⟩ else none

/-- The number of tokens. -/
def length (s : Sequence) : Nat := s.body.length + 1

/-- The token at a position. -/
def get (s : Sequence) (position : Nat) : Token := s.body.getD position s.last

/-- The token before a position; before the first position it is the last token. -/
def before (s : Sequence) : Nat → Token
  | 0 => s.last
  | position + 1 => s.get position

@[simp] theorem length_toList (s : Sequence) : s.toList.length = s.length := by
  simp [toList, length]

/-- From its last place on, a sequence has an end of the input everywhere. -/
theorem isEnd_get {s : Sequence} {position : Nat} (h : s.length ≤ position + 1) :
    (s.get position).isEnd = true := by
  have hle : s.body.length ≤ position := Nat.le_of_succ_le_succ h
  rw [get, List.getD_eq_getElem?_getD, List.getElem?_eq_none hle]
  exact s.last_isEnd

theorem toList_of_ofList? {tokens : List Token} {s : Sequence} (h : ofList? tokens = some s) :
    s.toList = tokens := by
  unfold ofList? at h
  split at h
  · simp at h
  · rename_i last hlast
    split at h
    · obtain rfl := Option.some.inj h
      obtain ⟨body, rfl⟩ := List.getLast?_eq_some_iff.1 hlast
      simp [toList]
    · simp at h

theorem ofList?_toList (s : Sequence) : ofList? s.toList = some s := by
  obtain ⟨body, last, h⟩ := s
  simp [ofList?, toList, h]

end Sequence

end LoxSyntax
