import SolidityHost.Host.Error

/-!
# Callback handlers

A compiler asks its host for the contents of a path or for an answer to a solver query. The host
answers with a handler for each kind; a handler may change the state of the host, and it may abort.
-/

set_option autoImplicit false

namespace SolidityHost

inductive CallbackKind where
  | source
  | query
  deriving DecidableEq, Repr

namespace CallbackKind

def name : CallbackKind → String
  | .source => "source"
  | .query => "smt-query"

def ofName (s : String) : Except HostError CallbackKind :=
  if s = name .source then .ok .source
  else if s = name .query then .ok .query
  else .error (.unknownKind s)

def unsupportedMessage : CallbackKind → String
  | .source => "File import callback not supported"
  | .query => "SMT solver callback not supported"

end CallbackKind

inductive Reply where
  | contents (text : String)
  | error (text : String)
  deriving DecidableEq, Repr

abbrev Handler (σ : Type) := String → σ → Except Abort Reply × σ

structure Handlers (σ : Type) where
  importer : Option (Handler σ)
  solver : Option (Handler σ)

namespace Handlers

variable {σ : Type}

def none : Handlers σ := ⟨.none, .none⟩

def handler? (h : Handlers σ) : CallbackKind → Option (Handler σ)
  | .source => h.importer
  | .query => h.solver

def answer (h : Handlers σ) (kind : CallbackKind) : Handler σ :=
  (h.handler? kind).getD fun _ s => (.ok (.error kind.unsupportedMessage), s)

def description (h : Handlers σ) : String :=
  "Callbacks \x7b import: " ++ toString h.importer.isSome ++ ", smt_solver: " ++
    toString h.solver.isSome ++ " \x7d"

end Handlers

end SolidityHost
