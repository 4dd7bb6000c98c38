/-!
# Faults

Every refusal of the library is reported as a fault: its kind and the words that explain it.  The
modules state causes as types of their own and turn them into faults.

## Main definitions

* `Fault`: a kind of refusal with its explanation.
* `Fault.message`: the report, with the words of its kind in front.
-/

namespace TimeSignal

/-- A refusal. -/
inductive Fault where
  /-- Steps were taken in an order that the library does not allow. -/
  | invariant (reason : String)
  /-- Two shapes have no combination. -/
  | unsupported (reason : String)
  /-- An argument is out of range. -/
  | validation (reason : String)
  /-- Formula text is refused at a byte offset. -/
  | parse (offset : Nat) (reason : String)
  /-- Another cause, reported in its own words. -/
  | other (reason : String)
deriving DecidableEq

namespace Fault

/-- The report of a fault. -/
def message : Fault → String
  | invariant reason => "invariant violation: " ++ reason
  | unsupported reason => "unsupported combination: " ++ reason
  | validation reason => "validation error: " ++ reason
  | parse offset reason => "parse error at byte " ++ toString offset ++ ": " ++ reason
  | other reason => reason

end Fault

end TimeSignal
