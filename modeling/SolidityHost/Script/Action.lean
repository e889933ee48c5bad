import SolidityHost.Script.World

/-!
# Actions of scripts

An action is a program that also reads and changes a frame. What it changed there stays changed
when it fails. Here are the actions of single steps and of lists of them, and the program of a
function of a script. Like all of the scripts, no part of the host: for runs to compare.
-/

set_option autoImplicit false

namespace SolidityHost.Script

abbrev ScriptProgram (α : Type) := HostProgram Nat World α

abbrev Action (α : Type) :=
  ExceptT Failure (StateT Frame (Program (HostFunction Nat World) World)) α

namespace Action

variable {α : Type}

def ofProgram (p : ScriptProgram α) : Action α := ExceptT.mk (StateT.lift p.attempt)

def perform (o : Op (HostFunction Nat World)) : Action o.Answer := ofProgram (Program.perform o)

def ofOutcome (r : Outcome α) : Action α := ExceptT.mk (pure r)

def see (look : Frame → Outcome α) : Action α := do ofOutcome (look (← get))

def say (p : Phrase) : Action String := do return (← get).phrase p

def attempt (a : Action α) : Action (Outcome α) := ExceptT.mk (do return .ok (← a.run))

def record (e : Event) : Action Unit := ofProgram (Program.modifyHost (·.record e))

def storeValue (name : Option String) (v : Value) : Action Unit :=
  match name with
  | some name => modify (·.setValue name v)
  | none => pure ()

def storeText (name : Option String) (s : String) : Action Unit :=
  match name with
  | some name => modify (·.setText name s)
  | none => pure ()

def addBody (b : Body) : Action Nat :=
  ofProgram (.host (·.addBody b) fun w => pure w.bodies.length)

def addHandlers (rs : Responders) : Action (Handlers World) :=
  ofProgram (.host (fun w => (w.addHandlers rs).2) fun w => pure (w.addHandlers rs).1)

def primitives : Action Primitives := do
  match (← get).primitives with
  | some c => pure c
  | none => ofOutcome (refuse .notProbed)

def readDelivered (p : Word) : Action (Option String) :=
  if p = 0 then pure none
  else do
    let s ← perform (.readText p)
    pure (some s)

end Action

inductive Answer where
  | nothing
  | value (v : Value)
  | shown (v : Value)
  | text (s : Option String)
  | slot (index : Nat) (protocol : Protocol)
  | callbackSlot (index : Nat) (protocol : Protocol)
  | delivery (d : Delivery)
  | probed (d : Descriptor) (c : Primitives)
  | answers (list : List Answer)

inductive Flow where
  | next (a : Answer)
  | finished (v : Value)

namespace Action

def callBackArguments (kind : Option (Value × Value)) (data : Word) : List Value :=
  match kind with
  | some (context, name) => [context, name, .pointer data]
  | none => [.pointer data]

def kindArguments : Option (Expr × Phrase) → Action (Option (Value × Value))
  | none => pure none
  | some (context, kind) => do
    let context ← see (·.value context)
    let name ← say kind
    let p ← ofProgram (Program.allocateText name)
    pure (some (context, .pointer p))

def callBack (slot : Expr) (kind : Option (Expr × Phrase)) (data : Phrase) : Action Delivery := do
  let slot ← see (·.value slot)
  let kind ← kindArguments kind
  let text ← say data
  let data ← ofProgram (Program.allocateText text)
  let out ← perform (.allocate 16)
  perform (.writeWord out 0)
  perform (.writeWord (out + 8) 0)
  let slot ← ofOutcome slot.index
  let _ ← perform (.invoke slot (callBackArguments kind data ++ [.pointer out, .pointer (out + 8)]))
  let contents ← readDelivered (← perform (.readWord out))
  let error ← readDelivered (← perform (.readWord (out + 8)))
  pure ⟨contents, error⟩

def storeDelivery (name : Option String) (d : Delivery) : Action Unit := do
  storeText (name.map (· ++ ".contents")) (d.contents.getD "")
  storeText (name.map (· ++ ".error")) (d.error.getD "")

def values (es : List Expr) : Action (List Value) := see fun f => es.mapM f.value

def give (store : Option String) (v : Value) : Action Answer := do
  storeValue store v
  pure (.value v)

def service : Option (Protocol × Responders) → Action (Option (CallbackService World))
  | none => pure none
  | some (protocol, rs) => do
    let handlers ← addHandlers rs
    pure (some ⟨protocol, handlers⟩)

end Action

open SolidityHost.Script.Action

def PrimitiveStep.action (c : Primitives) : PrimitiveStep → Action Answer
  | .register protocol responders store => do
    let handlers ← addHandlers responders
    let i ← perform (.register (.callbacks protocol c handlers))
    storeValue store (.slot i)
    pure (.callbackSlot i protocol)
  | .version => do
    let v ← ofProgram c.readVersion
    pure (.text (some v.raw))
  | .license => do
    let text ← ofProgram c.readLicense
    pure (.text text)
  | .allocate size store => do
    let p ← ofProgram (c.allocate size)
    give store (.pointer p)
  | .reset => do
    ofProgram c.resetAll
    pure .nothing
  | .copyText text out => do
    let out ← see (·.address out)
    let s ← say text
    ofProgram (c.copyText s out)
    pure .nothing
  | .readText p => do
    let p ← see (·.address p)
    let s ← perform (.readText p)
    pure (.text (some s))
  | .run symbol input extra callbacks => do
    let extra ← values extra
    let input ← say input
    let callbacks ← service callbacks
    let s ← ofProgram (EntryRun.run c symbol input extra callbacks)
    pure (.text (some s))

mutual

def Step.action : Step → Action Flow
  | .exports symbol => do
    let b ← perform (.exports symbol)
    pure (.next (.value (.bool b)))
  | .call symbol args shown store => do
    let args ← values args
    let v ← perform (.call symbol args)
    storeValue store v
    pure (.next (if shown then .shown v else .value v))
  | .invoke slot args store => do
    let args ← values args
    let slot ← see (·.index slot)
    let v ← perform (.invoke slot args)
    return .next (← give store v)
  | .register protocol body store => do
    let position ← addBody body
    let i ← perform (.register (.custom protocol position))
    storeValue store (.slot i)
    pure (.next (.slot i protocol))
  | .release slot => do
    let slot ← see (·.index slot)
    perform (.release slot)
    pure (.next .nothing)
  | .allocate size store => do
    let p ← perform (.allocate size)
    return .next (← give store (.pointer p))
  | .free p => do
    let p ← see (·.address p)
    perform (.free p)
    pure (.next .nothing)
  | .allocateText text store => do
    let s ← say text
    let p ← ofProgram (Program.allocateText s)
    return .next (← give store (.pointer p))
  | .readText p store => do
    let p ← see (·.address p)
    let s ← perform (.readText p)
    storeText store s
    pure (.next (.text (some s)))
  | .writeBytes _ none => ofOutcome (refuse .badHex)
  | .writeBytes p (some bytes) => do
    let p ← see (·.address p)
    perform (.writeBytes p bytes)
    pure (.next .nothing)
  | .readWord p store => do
    let p ← see (·.address p)
    let w ← perform (.readWord p)
    return .next (← give store (.pointer w))
  | .writeWord p value => do
    let p ← see (·.address p)
    let value ← see (·.address value)
    perform (.writeWord p value)
    pure (.next .nothing)
  | .callBack slot kind data store => do
    let d ← callBack slot kind data
    record (.delivery d)
    storeDelivery store d
    pure (.next (.delivery d))
  | .log text => do
    record (.text (← say text))
    pure (.next .nothing)
  | .logArguments => do
    record (.values (← get).args)
    pure (.next .nothing)
  | .finish value => do
    let v ← see (·.value value)
    pure (.finished v)
  | .finishText text => do
    let s ← say text
    let p ← ofProgram (Program.allocateText s)
    pure (.finished (.pointer p))
  | .fail e => throw (.error e)
  | .abort text => do
    let s ← say text
    throw (.abort (.raised s))
  | .probe => do
    let (d, c) ← ofProgram Program.probe
    modify fun f => { f with primitives := some c }
    pure (.next (.probed d c))
  | .primitive s => do
    let c ← primitives
    return .next (← s.action c)
  | .withSlot protocol responders steps reported => do
    let c ← primitives
    let handlers ← addHandlers responders
    let i ← perform (.register (.callbacks protocol c handlers))
    storeValue (some "slot") (.slot i)
    match ← attempt (runAll steps) with
    | .ok (.next a) => do
      if reported then perform (.release i)
      else let _ ← attempt (perform (.release i))
      pure (.next a)
    | .ok (.finished v) => do
      let _ ← attempt (perform (.release i))
      pure (.finished v)
    | .error failure => do
      let _ ← attempt (perform (.release i))
      throw failure
  | .unknown => ofOutcome (refuse .noSuchStep)

def runAll : List Step → Action Flow
  | [] => pure (.next (.answers []))
  | s :: rest => do
    match ← s.action with
    | .finished v => pure (.finished v)
    | .next a =>
      match ← runAll rest with
      | .next (.answers list) => pure (.next (.answers (a :: list)))
      | flow => pure flow

end

def Flow.result : Flow → Value
  | .next _ => .void
  | .finished v => v

def code (position : Nat) (args : List Value) : ScriptProgram Value :=
  .host (·.called position) fun w => do
    let (outcome, _) ← (runAll (w.steps position)).run.run (Frame.ofArguments args)
    Program.ofOutcome (outcome.map Flow.result)

def Step.program (s : Step) (f : Frame) : ScriptProgram (Outcome Flow × Frame) := s.action.run.run f

end SolidityHost.Script
