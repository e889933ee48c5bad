import SolidityHost.Generation.Descriptor
import SolidityHost.Host.Program

/-!
# Primitives

What every generation offers under one name or another: its version and license, an allocator for
memory that the compiler takes over, and a reset of all allocations. The names with the prefix
`solidity_` are preferred.
-/

set_option autoImplicit false

namespace SolidityHost

inductive Allocator where
  | entry (symbol : String)
  | heap
  deriving DecidableEq, Repr

structure Primitives where
  version : String
  license : Option String
  allocator : Allocator
  reset : Option String
  deriving DecidableEq, Repr

def Program.allocateText {F σ : Type} (s : String) : Program F σ Word := do
  let p ← perform (.allocate (Utf8.width s + 1))
  perform (.writeBytes p (Utf8.encode s))
  perform (.writeBytes (p + UInt64.ofNat (Utf8.width s)) [0])
  pure p

namespace Primitives

def resolve (es : Exports) : Except HostError Primitives :=
  match es.first? [.solidityVersion, .version] with
  | none => .error .noVersion
  | some reporter =>
    .ok {
      version := reporter.symbol
      license := (es.first? [.solidityLicense, .license]).map Export.symbol
      allocator :=
        match es.first? [.solidityAlloc, .malloc] with
        | some e => .entry e.symbol
        | none => .heap
      reset := (es.first? [.solidityReset]).map Export.symbol }

variable {F σ : Type}

def readFrom (symbol : String) : Program F σ String := do
  let v ← Program.perform (.call symbol [])
  let p ← Program.ofOutcome v.address
  Program.perform (.readText p)

def readVersion (c : Primitives) : Program F σ ReportedVersion := do
  let raw ← readFrom c.version
  pure ⟨raw⟩

def readLicense (c : Primitives) : Program F σ (Option String) :=
  match c.license with
  | some symbol => do
    let text ← readFrom symbol
    pure (some text)
  | none => pure none

def allocate (c : Primitives) (size : Nat) : Program F σ Word := do
  let p ←
    match c.allocator with
    | .entry symbol => do
      let v ← Program.perform (.call symbol [.pointer (UInt64.ofNat size)])
      Program.ofOutcome v.address
    | .heap => Program.perform (.allocate size)
  if p = 0 then Program.raise (.internal (.allocatorFailed size)) else pure p

def resetAll (c : Primitives) : Program F σ Unit :=
  match c.reset with
  | some symbol => do
    let _ ← Program.perform (.call symbol [])
    pure ()
  | none => pure ()

def copyText (c : Primitives) (s : String) (out : Word) : Program F σ Unit := do
  let p ← c.allocate (Utf8.width s + 1)
  Program.perform (.writeBytes p (Utf8.encode s))
  Program.perform (.writeBytes (p + UInt64.ofNat (Utf8.width s)) [0])
  Program.perform (.writeWord out p)

end Primitives

def Program.presentExports {F σ : Type} : List Export → Program F σ (List Export)
  | [] => pure []
  | e :: rest => do
    let present ← perform (.exports e.symbol)
    let others ← presentExports rest
    pure (if present then e :: others else others)

def Program.probe {F σ : Type} : Program F σ (Descriptor × Primitives) := do
  let present ← presentExports Export.all
  let exports : Exports := ⟨fun e => present.contains e⟩
  match Primitives.resolve exports with
  | .error e => raise e
  | .ok primitives =>
    let version ← primitives.readVersion
    pure (⟨exports, version⟩, primitives)

end SolidityHost
