/-!
# Known exports

The entry points that tell one generation of compilers from another, and what a module offers by
those that it has.
-/

set_option autoImplicit false

namespace SolidityHost

inductive Export where
  | solidityVersion
  | version
  | solidityLicense
  | license
  | solidityAlloc
  | malloc
  | solidityReset
  | compileJson
  | compileJsonMulti
  | compileJsonCallback
  | compileStandard
  | solidityCompile
  deriving DecidableEq, Repr

namespace Export

def all : List Export :=
  [.solidityVersion, .version, .solidityLicense, .license, .solidityAlloc, .malloc, .solidityReset,
   .compileJson, .compileJsonMulti, .compileJsonCallback, .compileStandard, .solidityCompile]

def symbol : Export → String
  | .solidityVersion => "solidity_version"
  | .version => "version"
  | .solidityLicense => "solidity_license"
  | .license => "license"
  | .solidityAlloc => "solidity_alloc"
  | .malloc => "malloc"
  | .solidityReset => "solidity_reset"
  | .compileJson => "compileJSON"
  | .compileJsonMulti => "compileJSONMulti"
  | .compileJsonCallback => "compileJSONCallback"
  | .compileStandard => "compileStandard"
  | .solidityCompile => "solidity_compile"

end Export

structure Exports where
  has : Export → Bool

namespace Exports

def ofNames (names : List String) : Exports := ⟨fun e => names.contains e.symbol⟩

def toList (es : Exports) : List Export := Export.all.filter es.has

def first? (es : Exports) (choices : List Export) : Option Export := choices.find? es.has

end Exports

structure Features where
  legacySingleInput : Bool
  multipleInputs : Bool
  importCallback : Bool
  nativeStandardJson : Bool
  deriving DecidableEq, Repr

def Exports.hasStandardJson (es : Exports) : Bool :=
  es.has .compileStandard || es.has .solidityCompile

def Features.ofExports (es : Exports) : Features where
  -- an entry point for standard JSON does everything but a single bare source
  legacySingleInput := es.has .compileJson
  multipleInputs := es.has .compileJsonMulti || es.hasStandardJson
  importCallback := es.has .compileJsonCallback || es.hasStandardJson
  nativeStandardJson := es.hasStandardJson

end SolidityHost
