import SolidityHost.Generation.Primitives
import SolidityHost.Json.Printer
import SolidityHost.Script.Basic

/-!
# Frames of scripts

What the steps of a function see: its arguments, their variables, and the primitives of the module
once they asked for them. Like all of the scripts, no part of the host: for runs to compare.
-/

set_option autoImplicit false

namespace SolidityHost.Script

structure Frame where
  args : List Value
  values : List (String × Value)
  texts : List (String × String)
  primitives : Option Primitives

namespace Frame

def ofArguments (args : List Value) : Frame := ⟨args, [], [], none⟩

def ofText (name s : String) : Frame := ⟨[], [], [(name, s)], none⟩

def setValue (f : Frame) (name : String) (v : Value) : Frame :=
  { f with values := (name, v) :: f.values }

def setText (f : Frame) (name s : String) : Frame := { f with texts := (name, s) :: f.texts }

def text (f : Frame) (name : String) : String := (f.texts.lookup name).getD ""

def read (f : Frame) : Origin → Outcome Value
  | .value v => .ok v
  | .argument i =>
    match f.args[i]? with
    | some v => .ok v
    | none => refuse .noSuchArgument
  | .named name =>
    match f.values.lookup name with
    | some v => .ok v
    | none => refuse .noSuchVariable

def value (f : Frame) (e : Expr) : Outcome Value :=
  match e.offset with
  | none => f.read e.origin
  | some offset => do
    let v ← f.read e.origin
    let p ← v.address
    pure (.pointer (p + offset))

def address (f : Frame) (e : Expr) : Outcome Word := do (← f.value e).address

def index (f : Frame) (e : Expr) : Outcome Nat := do (← f.value e).index

def phrase (f : Frame) : Phrase → String
  | .literal s => s
  | .named name => f.text name
  | .concat parts => phrases f parts
  | .quoted part => Json.literal (phrase f part)
  | .repeated part times => String.join (List.replicate times (phrase f part))
where
  phrases (f : Frame) : List Phrase → String
    | [] => ""
    | part :: rest => phrase f part ++ phrases f rest

end Frame

end SolidityHost.Script
