import SolidityHost.Callback.EntryRun
import SolidityHost.Script.Frame

/-!
# The world of scripts

What outlives a single call: the record of events, and for each function and each handler how often
it ran. Functions and handlers are known by their position. A handler has one turn for each of its
callbacks, whatever part of it answers. Like all of the scripts, no part of the host: for runs to
compare.
-/

set_option autoImplicit false

namespace SolidityHost.Script

structure Delivery where
  contents : Option String
  error : Option String

inductive Event where
  | text (s : String)
  | values (vs : List Value)
  | delivery (d : Delivery)
  | request (kind : CallbackKind) (data : String)

structure Recurring (α : Type) where
  plan : α
  turn : Nat

namespace Recurring

variable {α : Type}

def ofPlan (plan : α) : Recurring α := ⟨plan, 0⟩

def next (r : Recurring α) : Recurring α := { r with turn := r.turn + 1 }

end Recurring

structure World where
  events : List Event
  bodies : List (Recurring Body)
  responders : List (Recurring Responder)

namespace World

def empty : World := ⟨[], [], []⟩

def record (w : World) (e : Event) : World := { w with events := e :: w.events }

def forget (w : World) : World := { w with events := [] }

def addBody (w : World) (b : Body) : World := { w with bodies := w.bodies ++ [.ofPlan b] }

def addResponder (w : World) (r : Responder) : World :=
  { w with responders := w.responders ++ [.ofPlan r] }

def steps (w : World) (position : Nat) : List Step :=
  match w.bodies[position]? with
  | some b => b.plan.stepsAt b.turn
  | none => []

def called (w : World) (position : Nat) : World :=
  { w with bodies := w.bodies.modify position Recurring.next }

end World

def Responder.respond (turn : Nat) (data : String) : Responder → Except Abort Reply
  | .contents text => .ok (.contents ((Frame.ofText "data" data).phrase text))
  | .error text => .ok (.error ((Frame.ofText "data" data).phrase text))
  | .abort text => .error (.raised ((Frame.ofText "data" data).phrase text))
  | .onData key same other =>
    if key = data then same.respond turn data else other.respond turn data
  | .untilTurn t before after =>
    if turn < t then before.respond turn data else after.respond turn data

def World.answer (kind : CallbackKind) (position : Nat) (data : String) (w : World) :
    Except Abort Reply × World :=
  let w := w.record (.request kind data)
  match w.responders[position]? with
  | some r =>
    (r.plan.respond r.turn data,
      { w with responders := w.responders.modify position Recurring.next })
  | none => (.ok (.contents ""), w)

def World.addHandler (w : World) (kind : CallbackKind) :
    Option Responder → Option (Handler World) × World
  | some r => (some (World.answer kind w.responders.length), w.addResponder r)
  | none => (none, w)

def World.addHandlers (w : World) (rs : Responders) : Handlers World × World :=
  let (importer, w) := w.addHandler .source rs.importer
  let (solver, w) := w.addHandler .query rs.solver
  (⟨importer, solver⟩, w)

end SolidityHost.Script
