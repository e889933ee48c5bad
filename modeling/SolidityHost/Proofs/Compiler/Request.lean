import SolidityHost.Compiler.Standard
import SolidityHost.Proofs.Callback.EntryRun

/-!
# Requests

What a caller asks of a compiler comes down to at most one entry run: either nothing is done with
the module, or one entry point that the compiler has is run, and what it gives is passed on or
brought into another form.
-/

set_option autoImplicit false

namespace SolidityHost

open Program

namespace CompileEntry

def takesCallbacks : CompileEntry → Bool
  | .unified => true
  | .standard => true
  | .multiCallback => true
  | .multi => false
  | .single => false

theorem takesCallbacks_of_isStandardJson {e : CompileEntry} (h : e.isStandardJson) :
    e.takesCallbacks := by
  cases e <;> first | rfl | contradiction

theorem symbol_inj {e e' : CompileEntry} : e.symbol = e'.symbol ↔ e = e' := by
  cases e <;> cases e' <;> decide

theorem symbol_ne_reset (e : CompileEntry) : e.symbol ≠ Export.solidityReset.symbol := by
  cases e <;> decide

end CompileEntry

inductive Request (σ : Type) where
  | single (source : String) (optimize : Bool)
  | multi (sources : String) (optimize : Bool)
  | callback (sources : String) (optimize : Bool) (handlers : Handlers σ)
  | standard (input : String) (handlers : Handlers σ)
  | compile (input : String) (handlers : Handlers σ)

variable {C σ : Type}

def Request.program (c : Compiler) : Request σ → HostProgram C σ String
  | .single source optimize => c.compileSingle source optimize
  | .multi sources optimize => c.compileMulti sources optimize
  | .callback sources optimize handlers => c.compileCallback sources optimize handlers
  | .standard input handlers => c.compileStandard input handlers
  | .compile input handlers => c.compile input handlers

namespace Compiler

/-- Programs that run at most one entry point, and that only go on with its outcome. -/
inductive Serves (c : Compiler) : {α : Type} → HostProgram C σ α → Prop where
  | finish {α : Type} (outcome : Outcome α) : Serves c (.finish outcome)
  | run (e : CompileEntry) (input : String) (extra : List Value)
      (service : Option (CallbackService σ)) (h : service.isSome = e.takesCallbacks) :
      Serves c (EntryRun.run c.primitives e.symbol input extra service)
  | andThen {α β : Type} {p : HostProgram C σ α} (hp : Serves c p) (f : α → Outcome β) :
      Serves c (p >>= fun a => .finish (f a))

variable {c : Compiler}

theorem Serves.require {e : CompileEntry} {p : HostProgram C σ String} (hp : c.Serves p) :
    c.Serves (c.require e p) := by
  unfold Compiler.require
  split
  · exact hp
  · exact .finish _

theorem serves_compileSingle (source : String) (optimize : Bool) :
    c.Serves (c.compileSingle source optimize : HostProgram C σ String) :=
  .require (.run .single source _ none rfl)

theorem serves_compileMulti (sources : String) (optimize : Bool) :
    c.Serves (c.compileMulti sources optimize : HostProgram C σ String) :=
  .require (.run .multi sources _ none rfl)

theorem serves_compileCallback (sources : String) (optimize : Bool) (handlers : Handlers σ) :
    c.Serves (c.compileCallback sources optimize handlers : HostProgram C σ String) :=
  .require (.run .multiCallback sources _ (some _) rfl)

theorem serves_compileStandard (input : String) (handlers : Handlers σ) :
    c.Serves (c.compileStandard input handlers : HostProgram C σ String) := by
  unfold Compiler.compileStandard
  split
  · next e he =>
    obtain ⟨-, hj⟩ := Option.filter_eq_some_iff.1 he
    exact .run e input [] (some _) (CompileEntry.takesCallbacks_of_isStandardJson hj).symm
  · exact .finish _

theorem serves_legacyCall {input : LegacyInput} {handlers : Handlers σ}
    {call : HostProgram C σ String} (h : c.legacyCall input handlers = .ok call) :
    c.Serves call := by
  unfold Compiler.legacyCall at h
  split at h
  · obtain rfl := Except.ok.inj h
    exact serves_compileCallback ..
  · obtain rfl := Except.ok.inj h
    exact serves_compileMulti ..
  · split at h
    · obtain rfl := Except.ok.inj h
      exact serves_compileSingle ..
    · contradiction
  · contradiction

theorem serves_compileLegacy (input : String) (handlers : Handlers σ) :
    c.Serves (c.compileLegacy input handlers :
      HostProgram C σ (Except FatalFault Output)) := by
  unfold Compiler.compileLegacy
  split
  · exact .finish _
  · split
    · exact .finish _
    · next h => exact (serves_legacyCall h).andThen _

theorem serves_compile (input : String) (handlers : Handlers σ) :
    c.Serves (c.compile input handlers : HostProgram C σ String) := by
  unfold Compiler.compile
  split
  · exact serves_compileStandard input handlers
  · exact (serves_compileLegacy input handlers).andThen _

theorem serves_program (c : Compiler) (r : Request σ) :
    c.Serves (r.program c : HostProgram C σ String) := by
  cases r with
  | single source optimize => exact serves_compileSingle source optimize
  | multi sources optimize => exact serves_compileMulti sources optimize
  | callback sources optimize handlers => exact serves_compileCallback sources optimize handlers
  | standard input handlers => exact serves_compileStandard input handlers
  | compile input handlers => exact serves_compile input handlers

end Compiler

end SolidityHost
