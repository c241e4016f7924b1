/-!
# Result handles

A result handle carries one of these codes.  The operations modelled here only
look at the code, so a `Handle` of result type is its code.
-/

namespace Beelzebub

/-- Result codes of the kernel. -/
inductive HandleResult where
  | okay
  | outOfMemory
  | notFound
  | integrityFailure
  | cardinalityViolation
  | timeout
  | alignmentFailure
  | unsupportedOperation
  | notImplemented
  | objectDisposed
  | failed
  | argumentTemplateInvalid
  | argumentOutOfRange
  | argumentNull
  | handleInvalid
  | syscallSelectionInvalid
  | formatBadSpecifier
  | formatBadArgumentSize
  | pagesOutOfAllocatorRange
  | pageReserved
  | pageFree
  | pageInUse
  | pageCaching
  | pageStacked
  | pageNotStacked
  | pageMapIllegalRange
  | pageMapped
  | pageUnmapped
  | pageUndemandable
  | pageGuard
  | threadAlreadyLinked
  | cmdOptionsMalformatted
  | cmdOptionValueTypeInvalid
  | cmdOptionValueNotInTable
  | objaPoolsExhausted
  | objaAlreadyFree
  | objaMaximumCapacity
  | imageLoadingFailure
  | imageRelocationFailure
  | runtimeMismatch
  | immediateTermination
  | assertionFailure
  | nonZeroReturnCode
deriving DecidableEq, Repr, Inhabited

end Beelzebub
