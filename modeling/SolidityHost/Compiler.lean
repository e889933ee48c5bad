import SolidityHost.Callback.EntryRun

/-!
# Compilers

A compiler is a module whose generation is known. Each of its compile entry points can be called as
it is, with the input and output passed through; one that the module does not have is refused.
-/

set_option autoImplicit false

namespace SolidityHost

structure Compiler where
  descriptor : Descriptor
  primitives : Primitives

namespace Compiler

variable {C σ : Type}

def load : HostProgram C σ Compiler := do
  let (descriptor, primitives) ← Program.probe
  pure ⟨descriptor, primitives⟩

def license (c : Compiler) : HostProgram C σ (Option String) := c.primitives.readLicense

def require (c : Compiler) (e : CompileEntry) (p : HostProgram C σ String) :
    HostProgram C σ String :=
  if e ∈ c.descriptor.entries then p else Program.raise (.unsupported (.entry e.symbol))

def compileSingle (c : Compiler) (source : String) (optimize : Bool) : HostProgram C σ String :=
  c.require .single
    (EntryRun.run c.primitives (CompileEntry.symbol .single) source [.bool optimize] none)

def compileMulti (c : Compiler) (sources : String) (optimize : Bool) : HostProgram C σ String :=
  c.require .multi
    (EntryRun.run c.primitives (CompileEntry.symbol .multi) sources [.bool optimize] none)

def compileCallback (c : Compiler) (sources : String) (optimize : Bool) (handlers : Handlers σ) :
    HostProgram C σ String :=
  c.require .multiCallback
    (EntryRun.run c.primitives (CompileEntry.symbol .multiCallback) sources [.bool optimize]
      (some ⟨.importOnly, handlers⟩))

def compileStandard (c : Compiler) (input : String) (handlers : Handlers σ) :
    HostProgram C σ String :=
  match c.descriptor.standard? with
  | some e =>
    EntryRun.run c.primitives e.symbol input [] (some ⟨c.descriptor.entryProtocol e, handlers⟩)
  | none => Program.raise (.unsupported .standardJson)

end Compiler

end SolidityHost
