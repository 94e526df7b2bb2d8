/-!
# Diagnostics

Every failure of the library can be explained to a person. A `Diagnostic` is that
explanation: one sentence, a stable code, an optional hint and labels that point into the
text at fault. Offsets and lengths in labels count UTF-8 bytes.
-/

namespace RulePaths

/-- A remark about the `length` bytes of a text that start at byte `offset`. -/
structure Label where
  offset : Nat
  length : Nat
  note : String
deriving DecidableEq, Inhabited

/-- What is said about a failure: the sentence, the code that names its kind, a hint on what
to do about it, and the places of the text it speaks of. -/
structure Diagnostic where
  message : String
  code : String
  help : Option String
  labels : List Label
deriving DecidableEq, Inhabited

end RulePaths
