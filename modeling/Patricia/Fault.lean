import Patricia.Hash
import Patricia.Text.Utf8

/-!
# What can go wrong

A `TrieError` is an outcome that a caller has to expect: a store that fails or lacks a node, bytes
that are no node, a value of the wrong form. A `Breach` is a precondition that the caller broke, or
a place reached that is held to be out of reach. `Failure` joins the two for operations that can end
either way. Each cause has its wording in one function.
-/

namespace Patricia

/-- Why bytes are not an encoded node. -/
inductive DecodeError where
  | inputTooShort
  | nonCanonicalByte
  | leadingZero
  | nonCanonicalSize
  | unexpectedList
  | unexpectedLength
  | pathFlag
  | pathPadding
  | notAList
  | emptyExtensionPath
  | emptyExtensionChild
  | tooFewEntries
  | stringLength
  | listLength
deriving DecidableEq

/-- The report of a decoding error. -/
def DecodeError.message : DecodeError → String
  | .inputTooShort => "input too short"
  | .nonCanonicalByte => "non-canonical single byte"
  | .leadingZero => "leading zero"
  | .nonCanonicalSize => "non-canonical size"
  | .unexpectedList => "unexpected list"
  | .unexpectedLength => "unexpected length"
  | .pathFlag => "invalid compact path flag"
  | .pathPadding => "non-zero compact path padding"
  | .notAList => "MPT: Stored node is not a list"
  | .emptyExtensionPath => "MPT: Empty extension path"
  | .emptyExtensionChild => "MPT: Empty node in extension"
  | .tooFewEntries => "MPT: Branch with less than two entries"
  | .stringLength => "MPT: Invalid RLP string length"
  | .listLength => "MPT: Invalid RLP list length"

/-- Why a store did not serve a request: it reports a reason of its own, or the bytes it answered
with have another hash than the one asked for. -/
inductive StoreFault where
  | refused (reason : String)
  | wrongHash (hash : Hash)
deriving DecidableEq

/-- The report of a store fault. -/
def StoreFault.message : StoreFault → String
  | .refused reason => reason
  | .wrongHash hash => "node stored under " ++ hash.text ++ " has a different hash"

/-- Requests that have no answer for the kind of node they are made to. -/
inductive Unsupported where
  | valueOfExtension
  | encodingOfStored
deriving DecidableEq

/-- The report of an unsupported request. -/
def Unsupported.message : Unsupported → String
  | .valueOfExtension => "value of an extension node"
  | .encodingOfStored => "serializing an unresolved stored node"

/-- Failures that a caller of a trie has to expect. -/
inductive TrieError where
  | notFound (hash : Hash)
  | decode (cause : DecodeError)
  | unsupported (request : Unsupported)
  | invalidValue (fault : Utf8.Fault)
  | loaderDropped (hash : Hash)
  | store (fault : StoreFault)
deriving DecidableEq

/-- The report of a failure. -/
def TrieError.message : TrieError → String
  | .notFound hash => "node " ++ hash.text ++ " not found in store"
  | .decode cause => cause.message
  | .unsupported request => "unsupported operation: " ++ request.message
  | .invalidValue fault => "invalid value: " ++ fault.message
  | .loaderDropped hash => "loader for node " ++ hash.text ++ " was dropped"
  | .store fault => "store error: " ++ fault.message

/-- Preconditions that a caller can break. The last three are for places that no caller can reach:
a reference where it was resolved, or where only a resolved node is asked for its path or form. -/
inductive Breach where
  | terminatorInside
  | invalidNibble
  | joinPastTerminator
  | unterminatedLeaf
  | emptyExtension
  | terminatedExtension
  | unresolvedPriming
  | outOfRange
  | cacheTooLarge
  | resolvedToStored
  | pathOfStored
  | formOfStored
deriving DecidableEq

/-- The wording of a broken precondition. An index out of range and a cache too large have none of
their own. -/
def Breach.message? : Breach → Option String
  | .terminatorInside => some "leaf terminator inside a path"
  | .invalidNibble => some "invalid nibble"
  | .joinPastTerminator => some "joining past a terminator"
  | .unterminatedLeaf => some "leaf path without terminator"
  | .emptyExtension => some "empty extension path"
  | .terminatedExtension => some "extension path ends in a leaf terminator"
  | .unresolvedPriming => some "priming with an unresolved node"
  | .outOfRange | .cacheTooLarge => none
  | .resolvedToStored =>
      some "internal error: entered unreachable code: resolved() never returns a stored node"
  | .pathOfStored => some "internal error: entered unreachable code: only called on resolved nodes"
  | .formOfStored =>
      some "internal error: entered unreachable code: stored nodes are encoded by reference"

/-- How an operation can end without a result. -/
inductive Failure where
  | error (error : TrieError)
  | breach (breach : Breach)
deriving DecidableEq

end Patricia
