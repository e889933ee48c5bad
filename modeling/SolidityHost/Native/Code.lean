import SolidityHost.Native.Memory
import SolidityHost.Text.Utf8

/-!
# Native code

An entry point of a native library is a tree: it reads and writes memory, calls back, and gives a
word. Code knows a callback only by the address of one of two entries, one for each protocol; an
entry passes on as many words as its protocol takes.
-/

set_option autoImplicit false

namespace SolidityHost

namespace Native

inductive Code (α : Type) where
  | finish (result : α)
  -- changes the memory, and goes on with what it was before
  | memory (change : Memory → Memory) (next : Memory → Code α)
  | callback (protocol : Protocol) (args : List Word) (next : Code α)

def callbackAddress : Protocol → Word
  | .importOnly => 0xFFFFFFFFFFFF0000
  | .kinded => 0xFFFFFFFFFFFF1000

def protocolAt? (address : Word) : Option Protocol :=
  if address = callbackAddress .importOnly then some .importOnly
  else if address = callbackAddress .kinded then some .kinded
  else none

namespace Code

variable {α β : Type}

def bind (p : Code α) (f : α → Code β) : Code β :=
  match p with
  | .finish a => f a
  | .memory change next => .memory change fun m => (next m).bind f
  | .callback protocol args next => .callback protocol args (next.bind f)

instance : Monad Code where
  pure := .finish
  bind := bind

def allocate (size : Nat) : Code Word :=
  .memory (fun m => ((m.allocate? size).map (·.2)).getD m) fun m =>
    .finish (((m.allocate? size).map (·.1)).getD 0)

def write (p : Word) (bytes : List UInt8) : Code Unit :=
  .memory (·.write p bytes) fun _ => .finish ()

def readWord (p : Word) : Code Word := .memory id fun m => .finish (m.readWord p)

def readBytes (p : Word) : Code (List UInt8) := .memory id fun m => .finish (m.readBytes p)

def newBytes (bytes : List UInt8) : Code Word := do
  let p ← allocate (bytes.length + 1)
  write p bytes
  pure p

def newText (s : String) : Code Word := newBytes (Utf8.encode s)

def callAddress (address : Word) (args : List Word) : Code Unit :=
  -- words that are missing are passed as zeros
  match protocolAt? address with
  | some protocol =>
    .callback protocol ((args ++ List.replicate protocol.arity 0).take protocol.arity) (.finish ())
  | none => .finish ()

def run {S : Type} (get : S → Memory) (set : S → Memory → S)
    (callback : Protocol → List Word → S → S) : Code α → S → α × S
  | .finish a, s => (a, s)
  | .memory change next, s => run get set callback (next (get s)) (set s (change (get s)))
  | .callback protocol args next, s => run get set callback next (callback protocol args s)

end Code

structure Library where
  memory : Memory
  entries : List (String × (List Word → Code Word))

end Native

end SolidityHost
