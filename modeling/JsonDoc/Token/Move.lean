import JsonDoc.ParseError
import JsonDoc.Token.Basic

/-!
# Moves

A token is read one character at a time, and each character makes one move: it belongs to the token,
it ends the token, or it shows that the token had ended before it or was wrong.
-/

namespace JsonDoc

/-- What the next character does to a token that is being read. -/
inductive Move (σ : Type) where
  /-- The character is used and the token goes on. -/
  | shift (s : σ)
  /-- The character is used and the token is complete. -/
  | accept (t : Token)
  /-- The token was complete before the character. -/
  | acceptBefore (t : Token)
  /-- The character is used and there is no token. -/
  | reject (cause : Cause)
  /-- There is no token before the character. -/
  | rejectBefore (cause : Cause)

namespace Move

/-- The move in terms of another state. -/
def map {σ τ : Type} (f : σ → τ) : Move σ → Move τ
  | shift s => shift (f s)
  | accept t => accept t
  | acceptBefore t => acceptBefore t
  | reject cause => reject cause
  | rejectBefore cause => rejectBefore cause

/-- The move of a character that does not belong to a token whose value is to be settled. -/
def settle {σ : Type} : Except Cause Token → Move σ
  | .ok t => acceptBefore t
  | .error cause => rejectBefore cause

end Move

end JsonDoc
