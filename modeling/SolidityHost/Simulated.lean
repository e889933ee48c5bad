import SolidityHost.Callback.HostFunction
import SolidityHost.Host.Heap
import SolidityHost.Host.Table

/-!
# Simulated modules

A module in memory: its heap is a row of bytes, and each entry point is built in or is code of the
host. An entry point that runs cannot be called again before it ends. Slots of the function table
are never used twice. The module counts how many slots were registered and released, and how often
it was reset.

`Simulated.perform` gives the meaning of one operation from that of whole programs, which scripted
entry points and host functions run; `Simulated.run` closes the circle with a bound on how deeply
calls are nested.
-/

set_option autoImplicit false

namespace SolidityHost

namespace Simulated

inductive Entry (C : Type) where
  | scripted (code : C)
  | text (s : String)
  | allocator
  | reset

end Simulated

structure Simulated (C σ : Type) where
  heap : Heap
  entries : List (String × Simulated.Entry C)
  -- the entry points that are running, the innermost first
  running : List String
  table : Table (HostFunction C σ)
  registered : Nat
  released : Nat
  resets : Nat

namespace Simulated

variable {C σ α : Type}

def ofEntries (entries : List (String × Entry C)) : Simulated C σ where
  heap := .initial
  entries := entries
  running := []
  table := []
  registered := 0
  released := 0
  resets := 0

def allocate (m : Simulated C σ) (size : Nat) : Outcome Word × Simulated C σ :=
  match m.heap.allocate? size with
  | some (p, heap) => (.ok p, { m with heap })
  | none => (.error (.abort .addressSpaceExhausted), m)

def writeBytes (m : Simulated C σ) (p : Word) (bytes : List UInt8) : Outcome Unit × Simulated C σ :=
  match m.heap.write? p bytes with
  | some heap => (.ok (), { m with heap })
  | none => (refuse .outOfBounds, m)

def readText (m : Simulated C σ) (p : Word) : Outcome String :=
  if m.heap.Holds p 0 then
    let bytes := m.heap.tailFrom p
    if 0 ∈ bytes then
      match Utf8.decode (bytes.takeWhile (· ≠ 0)) with
      | .ok s => .ok s
      | .error fault => internal (.badText fault)
    else refuse .unterminated
  else refuse .outOfBounds

def readWord (m : Simulated C σ) (p : Word) : Outcome Word :=
  match m.heap.readWord? p with
  | some w => .ok w
  | none => refuse .outOfBounds

def allocateText (m : Simulated C σ) (s : String) : Outcome Word × Simulated C σ :=
  match m.allocate (Utf8.width s + 1) with
  | (.error e, m) => (.error e, m)
  | (.ok p, m) =>
    match m.writeBytes p (Utf8.encode s ++ [0]) with
    | (.error e, m) => (.error e, m)
    | (.ok (), m) => (.ok p, m)

def register (m : Simulated C σ) (f : HostFunction C σ) : Outcome Nat × Simulated C σ :=
  if m.table.length < Table.capacity then
    (.ok m.table.length, { m with table := m.table.add f, registered := m.registered + 1 })
  else (refuse .tableFull, m)

def release (m : Simulated C σ) (slot : Nat) : Outcome Unit × Simulated C σ :=
  match m.table.idle? slot with
  | some _ => (.ok (), { m with table := m.table.clear slot, released := m.released + 1 })
  | none => (.error (.error (.slotNotFound slot)), m)

def enter (code : C → List Value → HostProgram C σ Value)
    (nested : Runner (HostFunction C σ) σ (Simulated C σ)) (e : Entry C)
    (args : List Value) (s : Simulated C σ × σ) : Outcome Value × (Simulated C σ × σ) :=
  match e with
  | .scripted c => nested (code c args) s
  | .text t =>
    let (r, m) := s.1.allocateText t
    (r.map .pointer, (m, s.2))
  | .allocator =>
    match args with
    | [v] =>
      match v.word with
      | .error e => (.error e, s)
      | .ok size =>
        let (r, m) := s.1.allocate size.toNat
        (r.map .pointer, (m, s.2))
    | _ => (refuse .allocatorArity, s)
  | .reset => (.ok .void, ({ s.1 with heap := s.1.heap.reset, resets := s.1.resets + 1 }, s.2))

def call (code : C → List Value → HostProgram C σ Value)
    (nested : Runner (HostFunction C σ) σ (Simulated C σ)) (symbol : String)
    (args : List Value) (s : Simulated C σ × σ) : Outcome Value × (Simulated C σ × σ) :=
  -- the entry point is running until the call ends, however it ends
  match s.1.entries.lookup symbol with
  | none => (.error (.error (.symbolNotFound symbol)), s)
  | some e =>
    if symbol ∈ s.1.running then (internal (.recursiveCall symbol), s)
    else
      let (r, (m, w)) :=
        enter code nested e args ({ s.1 with running := symbol :: s.1.running }, s.2)
      (r, ({ m with running := m.running.erase symbol }, w))

def invoke (code : C → List Value → HostProgram C σ Value)
    (nested : Runner (HostFunction C σ) σ (Simulated C σ)) (slot : Nat) (args : List Value)
    (s : Simulated C σ × σ) : Outcome Value × (Simulated C σ × σ) :=
  HostFunction.invoke (·.table) (fun m table => { m with table }) code nested slot args s

def perform (code : C → List Value → HostProgram C σ Value)
    (nested : Runner (HostFunction C σ) σ (Simulated C σ))
    (o : Op (HostFunction C σ)) (s : Simulated C σ × σ) :
    Outcome o.Answer × (Simulated C σ × σ) :=
  match o with
  | .exports symbol => (.ok (s.1.entries.lookup symbol).isSome, s)
  | .call symbol args => call code nested symbol args s
  | .invoke slot args => invoke code nested slot args s
  | .register f =>
    let (r, m) := s.1.register f
    (r, (m, s.2))
  | .release slot =>
    let (r, m) := s.1.release slot
    (r, (m, s.2))
  | .allocate size =>
    let (r, m) := s.1.allocate size
    (r, (m, s.2))
  | .free _ => (.ok (), s)
  | .readText p => (s.1.readText p, s)
  | .writeBytes p bytes =>
    let (r, m) := s.1.writeBytes p bytes
    (r, (m, s.2))
  | .readWord p => (s.1.readWord p, s)
  | .writeWord p value =>
    let (r, m) := s.1.writeBytes p value.toBytes
    (r, (m, s.2))

def maxDepth : Nat := 1000

def run (code : C → List Value → HostProgram C σ Value) (p : HostProgram C σ α)
    (s : Simulated C σ × σ) : Outcome α × (Simulated C σ × σ) :=
  p.run (Meaning.nested (perform code) maxDepth) s

end Simulated

end SolidityHost
