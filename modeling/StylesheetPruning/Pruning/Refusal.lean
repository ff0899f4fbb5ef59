/-!
# Inputs that are refused

Malformed stylesheets and pages are never refused. An input is refused only
when its bytes are no text, or when it is longer than the limit.
-/

namespace StylesheetPruning

/-- The two inputs of a run. -/
inductive Input where
  | stylesheet
  | page
deriving Repr, DecidableEq

/-- The word for an input in messages. -/
def Input.name : Input → String
  | .stylesheet => "CSS"
  | .page => "HTML"

/-- Why an input is refused. -/
inductive Refusal where
  /-- The bytes are UTF-8 only up to this offset. -/
  | notText (input : Input) (validLength : Nat)
  /-- The input is longer than the limit. -/
  | tooLong (input : Input) (length limit : Nat)
deriving Repr, DecidableEq

/-- The message for a refused input. -/
def Refusal.message : Refusal → String
  | notText input validLength =>
      input.name ++ " input is not valid UTF-8 (valid up to byte " ++
        toString validLength ++ ")"
  | tooLong input length limit =>
      input.name ++ " input is " ++ toString length ++
        " bytes, over the limit of " ++ toString limit ++ " bytes"

end StylesheetPruning
