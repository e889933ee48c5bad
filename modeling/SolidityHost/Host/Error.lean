import SolidityHost.NormalizationError
import SolidityHost.Text.Utf8

/-!
# Errors of a module

What can go wrong at the border between a host and a compiler module, by cause. The wording is in
the `message` functions.
-/

set_option autoImplicit false

namespace SolidityHost

inductive ArgumentFault where
  | outOfBounds
  | unterminated
  | allocatorArity
  | unmaterialized
  | notPointer
  | notSlot
  | callbackArity
  | tableFull
  | tooManyArguments
  | noCallbackFunction
  -- the others are faults of scripts
  | noSuchArgument
  | noSuchVariable
  | noSuchStep
  | badHex
  | notProbed
  | raised
  deriving DecidableEq, Repr

def ArgumentFault.message : ArgumentFault → String
  | .outOfBounds => "heap access out of bounds"
  | .unterminated => "unterminated string"
  | .allocatorArity => "allocate takes one argument"
  | .unmaterialized => "function references must be materialized by the module"
  | .notPointer => "expected a pointer value"
  | .notSlot => "expected a function reference"
  | .callbackArity => "argument count does not match the function table signature"
  | .tableFull => "function table is full"
  | .tooManyArguments => "too many arguments to a native entry point"
  | .noCallbackFunction => "no function registered for the callback signature"
  | .noSuchArgument => "no such argument"
  | .noSuchVariable => "no such variable"
  | .noSuchStep => "no such step"
  | .badHex => "bad hex in script"
  | .notProbed => "probe first"
  | .raised => "raised by script"

inductive InternalFault where
  | recursiveCall (symbol : String)
  | allocatorFailed (size : Nat)
  | outOfMemory (size : Nat)
  | nullText
  | nullRead
  | nullWrite
  | badText (fault : Utf8.Fault)
  | stated (text : String)
  deriving DecidableEq, Repr

def InternalFault.message : InternalFault → String
  | .recursiveCall symbol => "mock export `" ++ symbol ++ "` called recursively"
  | .allocatorFailed size =>
    "compiler module failed to allocate " ++ toString size ++ " bytes"
  | .outOfMemory size => "allocation of " ++ toString size ++ " bytes failed"
  | .nullText => "null string pointer"
  | .nullRead => "read through null pointer"
  | .nullWrite => "write through null pointer"
  | .badText fault => fault.message
  | .stated text => text

inductive UnsupportedFeature where
  | entry (symbol : String)
  | standardJson
  | stated (text : String)
  deriving DecidableEq, Repr

def UnsupportedFeature.message : UnsupportedFeature → String
  | .entry symbol => "compiler module does not export `" ++ symbol ++ "`"
  | .standardJson => "compiler module has no standard JSON entry point"
  | .stated text => text

inductive HostError where
  | invalidArgument (fault : ArgumentFault)
  | noVersion
  | symbolNotFound (symbol : String)
  | slotNotFound (slot : Nat)
  | loading
  -- a callback came with a context that is not null
  | contextNotNull
  | unknownKind (kind : String)
  | normalization (error : NormalizationError)
  | internal (fault : InternalFault)
  | unsupported (feature : UnsupportedFeature)
  deriving DecidableEq, Repr

def HostError.message : HostError → String
  | .invalidArgument fault => "Invalid argument: " ++ fault.message
  | .noVersion =>
    "Module error: Incorrect module definition: " ++
      "module exports neither `solidity_version` nor `version`"
  | .symbolNotFound symbol => "Symbol not found: " ++ symbol
  | .slotNotFound slot => "Function not found: (slot " ++ toString slot ++ ")"
  -- stands for the words of the loader of the system
  | .loading => "Dynamic loading error: the library cannot be loaded"
  | .contextNotNull => "Callback context must be null"
  | .unknownKind kind => "Invalid callback kind specified: " ++ kind
  | .normalization error => "Output error: " ++ error.message
  | .internal fault => "Internal error: " ++ fault.message
  | .unsupported feature => "Unsupported feature: " ++ feature.message

inductive Abort where
  | raised (text : String)
  | stackExhausted
  | addressSpaceExhausted
  deriving DecidableEq, Repr

def Abort.text : Abort → String
  | .raised text => text
  | .stackExhausted => "stack exhausted"
  | .addressSpaceExhausted => "capacity overflow"

inductive Failure where
  | error (e : HostError)
  | abort (a : Abort)
  deriving DecidableEq, Repr

abbrev Outcome (α : Type) := Except Failure α

def refuse {α : Type} (fault : ArgumentFault) : Outcome α :=
  .error (.error (.invalidArgument fault))

def internal {α : Type} (fault : InternalFault) : Outcome α :=
  .error (.error (.internal fault))

end SolidityHost
