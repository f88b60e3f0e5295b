import Mathlib.Data.List.Basic

/-! # Error codes

The values of `UErrorCode` that the modelled functions set.
-/

namespace Icu

inductive UErrorCode
  | usingDefaultWarning
  | stringNotTerminatedWarning
  | zeroError
  | illegalArgumentError
  | internalProgramError
  | memoryAllocationError
  | indexOutOfBoundsError
  | invalidStateError
  | invalidCharFound
  | truncatedCharFound
  | illegalCharFound
  | bufferOverflowError
  | noWritePermission
  | defaultKeywordMissing
  | malformedSet
  | malformedUnicodeEscape
  | patternSyntaxError
  | unmatchedBraces
  deriving DecidableEq, Repr

/-- `U_SUCCESS(code)`: warnings are not failures. -/
def UErrorCode.isSuccess : UErrorCode → Bool
  | .usingDefaultWarning => true
  | .stringNotTerminatedWarning => true
  | .zeroError => true
  | _ => false

end Icu
