import SolidityHost.Generation.Export
import SolidityHost.Host.Word
import SolidityHost.Version.Reported

/-!
# Generations

A module belongs to a generation by its exports and its version. The version decides the callback
protocol: compilers after 0.5.99 pass a kind and a context. Of the compile entry points that a
module has, the most capable one is preferred.
-/

set_option autoImplicit false

namespace SolidityHost

def Protocol.ofVersion (v : ReportedVersion) : Protocol :=
  -- a version that cannot be parsed uses the older protocol
  if v.newerThan ⟨0, 5, 99⟩ then .kinded else .importOnly

inductive CompileEntry where
  -- standard JSON and a callback; with a context behind it once callbacks are kinded
  | unified
  | standard
  | multiCallback
  | multi
  | single
  deriving DecidableEq, Repr

namespace CompileEntry

def preference : List CompileEntry := [.unified, .standard, .multiCallback, .multi, .single]

def known : CompileEntry → Export
  | .unified => .solidityCompile
  | .standard => .compileStandard
  | .multiCallback => .compileJsonCallback
  | .multi => .compileJsonMulti
  | .single => .compileJson

def symbol (e : CompileEntry) : String := e.known.symbol

def isStandardJson : CompileEntry → Bool
  | .unified => true
  | .standard => true
  | _ => false

end CompileEntry

structure Descriptor where
  exports : Exports
  version : ReportedVersion

namespace Descriptor

def protocol (d : Descriptor) : Protocol := .ofVersion d.version

def isModern (d : Descriptor) : Bool := d.protocol = .kinded

def features (d : Descriptor) : Features := .ofExports d.exports

def entries (d : Descriptor) : List CompileEntry :=
  CompileEntry.preference.filter fun e => d.exports.has e.known

def preferred? (d : Descriptor) : Option CompileEntry := d.entries.head?

def standard? (d : Descriptor) : Option CompileEntry :=
  d.preferred?.filter CompileEntry.isStandardJson

def entryProtocol (d : Descriptor) : CompileEntry → Protocol
  -- only the unified entry point changed its protocol
  | .unified => d.protocol
  | _ => .importOnly

end Descriptor

end SolidityHost
