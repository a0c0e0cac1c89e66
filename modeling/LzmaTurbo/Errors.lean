import LzmaTurbo.Lzma.State

/-!
# Why an xz read fails
-/
namespace LzmaTurbo

/-- `XzErrorKind`. -/
inductive XzErrorKind where
  | badMagic
  | badFooterMagic
  | badStreamFlags
  | streamFlagsMismatch
  | headerCrc
  | unsupportedCheck
  | checkMismatch
  | unsupportedFilter
  | badFilterChain
  | badVli
  | truncatedVli
  | badPadding
  | badBlockHeader
  | sizeMismatch
  | indexMismatch
  | truncatedInput
  | trailingGarbage
  | memoryLimit (needed limit : ℕ)
  | tooMuchOutput (limit : ℕ)
  | lzma (e : Lzma.Error)
deriving Repr, DecidableEq

end LzmaTurbo
