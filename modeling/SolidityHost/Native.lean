import SolidityHost.Callback.HostFunction
import SolidityHost.Host.Table
import SolidityHost.Native.Code

/-!
# Native modules

A module around a native library. Words are passed to its entry points as they are; a function
reference is passed as the address of the callback entry for its protocol, so that a callback goes
to the slot of that protocol that was registered last and is still ready.

Nothing may unwind through native code. A failure of a callback is kept until the outermost call of
an entry point ends, and then ends that call; callbacks that come in between do nothing.
Slots at the end of the table are given up as soon as no function is ready in them, and their
indices are used again.
-/

set_option autoImplicit false

namespace SolidityHost

structure Native (C σ : Type) where
  identity : Nat
  library : Native.Library
  -- stands in front of every entry point's name
  symbolPrefix : String
  memory : Native.Memory
  table : Table (HostFunction C σ)
  depth : Nat
  -- a failure of a callback since the outermost call began
  pending : Option Failure
  current : Option Nat

namespace Native

variable {C σ α : Type}

def load (identity : Nat) (library : Library) (symbolPrefix : String) : Native C σ where
  identity := identity
  library := library
  symbolPrefix := symbolPrefix
  memory := library.memory
  table := []
  depth := 0
  pending := none
  current := none

def entryCode? (m : Native C σ) (symbol : String) : Option (List Word → Code Word) :=
  m.library.entries.lookup (m.symbolPrefix ++ symbol)

def materialize (m : Native C σ) : Value → Outcome Word
  | .slot i =>
    match m.table.idle? i with
    | some f => .ok (callbackAddress f.protocol)
    | none => .error (.error (.slotNotFound i))
  | v => v.word

def maxArguments : Nat := 5

def allocate (m : Native C σ) (size : Nat) : Outcome Word × Native C σ :=
  match m.memory.allocate? size with
  | some (p, memory) => (.ok p, { m with memory })
  | none => (internal (.outOfMemory size), m)

def readText (m : Native C σ) (p : Word) : Outcome String :=
  if p = 0 then internal .nullText
  else
    match Utf8.decode (m.memory.readBytes p) with
    | .ok s => .ok s
    | .error fault => internal (.badText fault)

def writeBytes (m : Native C σ) (p : Word) (bytes : List UInt8) : Outcome Unit × Native C σ :=
  if p = 0 then (internal .nullWrite, m)
  else (.ok (), { m with memory := m.memory.write p bytes })

def readWord (m : Native C σ) (p : Word) : Outcome Word :=
  if p = 0 then internal .nullRead else .ok (m.memory.readWord p)

def register (m : Native C σ) (f : HostFunction C σ) : Outcome Nat × Native C σ :=
  if m.table.length < Table.capacity then (.ok m.table.length, { m with table := m.table.add f })
  else (refuse .tableFull, m)

def release (m : Native C σ) (slot : Nat) : Outcome Unit × Native C σ :=
  match m.table.idle? slot with
  | some _ => (.ok (), { m with table := (m.table.clear slot).shrink })
  | none => (.error (.error (.slotNotFound slot)), m)

def invoke (code : C → List Value → HostProgram C σ Value)
    (nested : Runner (HostFunction C σ) σ (Native C σ)) (slot : Nat) (args : List Value)
    (s : Native C σ × σ) : Outcome Value × (Native C σ × σ) :=
  HostFunction.invoke (·.table) (fun m table => { m with table }) code nested slot args s

def answer (code : C → List Value → HostProgram C σ Value)
    (nested : Runner (HostFunction C σ) σ (Native C σ))
    (protocol : Protocol) (args : List Word) (s : Native C σ × σ) :
    Outcome Value × (Native C σ × σ) :=
  -- the function that was registered last for the protocol answers
  match s.1.table.latest? fun f => f.protocol = protocol with
  | some slot => invoke code nested slot (args.map .pointer) s
  | none => (refuse .noCallbackFunction, s)

/-- A callback of native code. It does nothing outside of a call of this module, or behind a
failure. -/
def dispatch (code : C → List Value → HostProgram C σ Value)
    (nested : Runner (HostFunction C σ) σ (Native C σ))
    (protocol : Protocol) (args : List Word) (s : Native C σ × σ) : Native C σ × σ :=
  if s.1.current = some s.1.identity ∧ s.1.pending.isNone then
    match answer code nested protocol args s with
    | (.ok _, s) => s
    | (.error failure, (m, w)) => ({ m with pending := some failure }, w)
  else s

def runCode (code : C → List Value → HostProgram C σ Value)
    (nested : Runner (HostFunction C σ) σ (Native C σ))
    (entry : List Word → Code Word) (words : List Word) (s : Native C σ × σ) :
    Outcome Word × (Native C σ × σ) :=
  if words.length ≤ maxArguments then
    let (w, s) := (entry words).run (fun s => s.1.memory)
      (fun s memory => ({ s.1 with memory }, s.2)) (dispatch code nested) s
    (.ok w, s)
  else (refuse .tooManyArguments, s)

def leave (result : Outcome Word) (m : Native C σ) : Outcome Value × Native C σ :=
  -- when it was the outermost call, a failure that was kept ends it
  if m.depth = 0 then
    match m.pending with
    | some failure => (.error failure, { m with pending := none })
    | none => (result.map .pointer, m)
  else (result.map .pointer, m)

def call (code : C → List Value → HostProgram C σ Value)
    (nested : Runner (HostFunction C σ) σ (Native C σ)) (symbol : String)
    (args : List Value) (s : Native C σ × σ) : Outcome Value × (Native C σ × σ) :=
  match s.1.entryCode? symbol with
  | none => (.error (.error (.symbolNotFound symbol)), s)
  | some entry =>
    match args.mapM s.1.materialize with
    | .error failure => (.error failure, s)
    | .ok words =>
      let previous := s.1.current
      let (r, (m, w)) := runCode code nested entry words
        ({ s.1 with current := some s.1.identity, depth := s.1.depth + 1 }, s.2)
      let (r, m) := leave r { m with current := previous, depth := m.depth - 1 }
      (r, (m, w))

def perform (code : C → List Value → HostProgram C σ Value)
    (nested : Runner (HostFunction C σ) σ (Native C σ))
    (o : Op (HostFunction C σ)) (s : Native C σ × σ) : Outcome o.Answer × (Native C σ × σ) :=
  match o with
  | .exports symbol => (.ok (s.1.entryCode? symbol).isSome, s)
  | .call symbol args => call code nested symbol args s
  | .invoke slot args => invoke code nested slot args s
  | .register f =>
    let (r, m) := s.1.register f
    (r, (m, s.2))
  | .release slot =>
    let (r, m) := s.1.release slot
    (r, (m, s.2))
  | .allocate size =>
    let (r, m) := s.1.allocate size
    (r, (m, s.2))
  | .free _ => (.ok (), s)
  | .readText p => (s.1.readText p, s)
  | .writeBytes p bytes =>
    let (r, m) := s.1.writeBytes p bytes
    (r, (m, s.2))
  | .readWord p => (s.1.readWord p, s)
  | .writeWord p value =>
    let (r, m) := s.1.writeBytes p value.toBytes
    (r, (m, s.2))

def maxDepth : Nat := 1000

def run (code : C → List Value → HostProgram C σ Value) (p : HostProgram C σ α)
    (s : Native C σ × σ) : Outcome α × (Native C σ × σ) :=
  p.run (Meaning.nested (perform code) maxDepth) s

end Native

end SolidityHost
