import SolidityHost.Callback.Handlers
import SolidityHost.Generation.Primitives
import SolidityHost.Host.Table

/-!
# Host functions

A function table holds functions of the host. One that serves callbacks reads its arguments from
the module, runs a handler and delivers the reply; any other is some code of the host, which is
named here and given its meaning where it is run.
-/

set_option autoImplicit false

namespace SolidityHost

/-- A function that a module may call. `C` names code of the host, and `σ` is its state. -/
inductive HostFunction (C σ : Type) where
  | custom (protocol : Protocol) (code : C)
  | callbacks (protocol : Protocol) (primitives : Primitives) (handlers : Handlers σ)

abbrev HostProgram (C σ α : Type) := Program (HostFunction C σ) σ α

namespace HostFunction

variable {C σ : Type}

def protocol : HostFunction C σ → Protocol
  | .custom p _ => p
  | .callbacks p _ _ => p

end HostFunction

namespace Callback

variable {C σ : Type}

def readTextAt (v : Value) : HostProgram C σ String := do
  let p ← Program.ofOutcome v.address
  Program.perform (.readText p)

def ask (handlers : Handlers σ) (kind : CallbackKind) (data : String) : HostProgram C σ Reply :=
  .host (fun s => (handlers.answer kind data s).2) fun s =>
    match (handlers.answer kind data s).1 with
    | .ok reply => pure reply
    | .error a => Program.fail (.abort a)

def deliver (c : Primitives) (reply : Reply) (contents error : Value) : HostProgram C σ Value := do
  let contents ← Program.ofOutcome contents.address
  let error ← Program.ofOutcome error.address
  match reply with
  | .contents text => c.copyText text contents
  | .error text => c.copyText text error
  pure .void

def serveImport (c : Primitives) (handlers : Handlers σ) (path contents error : Value) :
    HostProgram C σ Value := do
  let path ← readTextAt path
  let reply ← ask handlers .source path
  deliver c reply contents error

def serveKinded (c : Primitives) (handlers : Handlers σ)
    (context kind data contents error : Value) : HostProgram C σ Value := do
  if context.isNull then
    let name ← readTextAt kind
    match CallbackKind.ofName name with
    | .error e => Program.raise e
    | .ok kind =>
      let data ← readTextAt data
      let reply ← ask handlers kind data
      deliver c reply contents error
  else Program.raise .contextNotNull

end Callback

namespace HostFunction

variable {C σ : Type}

def program (code : C → List Value → HostProgram C σ Value) (f : HostFunction C σ)
    (args : List Value) : HostProgram C σ Value :=
  if args.length = f.protocol.arity then
    match f, args with
    | .custom _ c, args => code c args
    | .callbacks .importOnly c handlers, [path, contents, error] =>
      Callback.serveImport c handlers path contents error
    | .callbacks .kinded c handlers, [context, kind, data, contents, error] =>
      Callback.serveKinded c handlers context kind data contents error
    | _, _ => Program.ofOutcome (refuse .callbackArity)
  else Program.ofOutcome (refuse .callbackArity)

/-- Calls the function in a slot of a module's table, which is running until the call ends, however
it ends. `table` and `withTable` read and replace the table. -/
def invoke {S : Type} (table : S → Table (HostFunction C σ))
    (withTable : S → Table (HostFunction C σ) → S)
    (code : C → List Value → HostProgram C σ Value) (nested : Runner (HostFunction C σ) σ S)
    (slot : Nat) (args : List Value) (s : S × σ) : Outcome Value × (S × σ) :=
  match (table s.1).idle? slot with
  | none => (.error (.error (.slotNotFound slot)), s)
  | some f =>
    let (r, (m, w)) :=
      nested (f.program code args) (withTable s.1 ((table s.1).checkOut slot f), s.2)
    (r, (withTable m ((table m).restore slot f), w))

end HostFunction

end SolidityHost
