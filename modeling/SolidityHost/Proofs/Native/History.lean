import SolidityHost.Native
import SolidityHost.Proofs.Host.Log

/-!
# Histories of a native module

While an operation of a native module runs, functions are registered and released, functions of
slots begin and end, and native code calls back. The history of an operation lists all of that in
order, each with the function table behind it. What every single one of them explains, a history
explains.
-/

set_option autoImplicit false

namespace SolidityHost.Native

variable {C σ α : Type}

def enter (m : Native C σ) : Native C σ :=
  { m with current := some m.identity, depth := m.depth + 1 }

def settle (m : Native C σ) : Native C σ := if m.depth = 0 then { m with pending := none } else m

def exit (m : Native C σ) (previous : Option Nat) : Native C σ :=
  settle { m with current := previous, depth := m.depth - 1 }

def checkOut (m : Native C σ) (slot : Nat) (f : HostFunction C σ) : Native C σ :=
  { m with table := m.table.checkOut slot f }

def restore (m : Native C σ) (slot : Nat) (f : HostFunction C σ) : Native C σ :=
  { m with table := m.table.restore slot f }

def execute (code : C → List Value → HostProgram C σ Value)
    (runner : Runner (HostFunction C σ) σ (Native C σ)) (c : Code α) (s : Native C σ × σ) :
    α × (Native C σ × σ) :=
  c.run (fun s => s.1.memory) (fun s memory => ({ s.1 with memory }, s.2)) (dispatch code runner) s

def entered? (m : Native C σ) (symbol : String) (args : List Value) : Option (Code Word) :=
  match m.entryCode? symbol, args.mapM m.materialize with
  | some entry, .ok words => if words.length ≤ maxArguments then some (entry words) else none
  | _, _ => none

structure Dispatch (C σ : Type) where
  protocol : Protocol
  args : List Word
  before : Native C σ × σ
  runner : Runner (HostFunction C σ) σ (Native C σ)

namespace Dispatch

variable (code : C → List Value → HostProgram C σ Value) (d : Dispatch C σ)

def after : Native C σ × σ := dispatch code d.runner d.protocol d.args d.before

def Heeded : Prop :=
  d.before.1.current = some d.before.1.identity ∧ d.before.1.pending.isNone

instance : Decidable d.Heeded := inferInstanceAs (Decidable (_ ∧ _))

def Ignored : Prop := ∀ runner, dispatch code runner d.protocol d.args d.before = d.before

def failure? : Option Failure :=
  if d.Heeded then
    match (answer code d.runner d.protocol d.args d.before).1 with
    | .ok _ => none
    | .error f => some f
  else none

variable {code} {d}

theorem ignored_of_not_heeded (h : ¬ d.Heeded) : d.Ignored code := by
  intro runner
  rw [dispatch]
  exact if_neg h

theorem failure?_of_not_heeded (h : ¬ d.Heeded) : d.failure? code = none := if_neg h

theorem after_of_not_heeded (h : ¬ d.Heeded) : d.after code = d.before :=
  ignored_of_not_heeded h d.runner

theorem after_of_heeded (h : d.Heeded) : (d.after code).1 =
    { (answer code d.runner d.protocol d.args d.before).2.1 with
      pending := (d.failure? code).or
        (answer code d.runner d.protocol d.args d.before).2.1.pending } := by
  have hafter : d.after code = _ := if_pos h
  rw [hafter, failure?, if_pos h]
  rcases answer code d.runner d.protocol d.args d.before with ⟨r, s⟩
  cases r <;> rfl

theorem not_ignored_of_failure? {f : Failure} (h : d.failure? code = some f) :
    ¬ d.Ignored code := by
  by_cases hd : d.Heeded
  · intro hi
    have hsame : d.after code = d.before := hi d.runner
    have hnone := hd.2
    rw [← hsame, after_of_heeded hd, h] at hnone
    simp at hnone
  · rw [failure?_of_not_heeded hd] at h
    contradiction

end Dispatch

inductive Event (C σ : Type) where
  | registered (slot : Nat) (function : HostFunction C σ)
  | released (slot : Nat)
  | began (slot : Nat) (function : HostFunction C σ)
  | ended (slot : Nat)
  | reached (d : Dispatch C σ)
  | left (d : Dispatch C σ)

structure Record (C σ : Type) where
  event : Event C σ
  table : Table (HostFunction C σ)

section

variable (code : C → List Value → HostProgram C σ Value)
  (runner : Runner (HostFunction C σ) σ (Native C σ))
  (logger : Logger (HostFunction C σ) σ (Native C σ) (Record C σ))

def observeInvoke (slot : Nat) (args : List Value) (s : Native C σ × σ) : List (Record C σ) :=
  match s.1.table.idle? slot with
  | some f =>
    ⟨.began slot f, (s.1.checkOut slot f).table⟩ ::
      (logger (f.program code args) (s.1.checkOut slot f, s.2) ++
        [⟨.ended slot, (invoke code runner slot args s).2.1.table⟩])
  | none => []

def observeAnswer (protocol : Protocol) (args : List Word) (s : Native C σ × σ) :
    List (Record C σ) :=
  match s.1.table.latest? fun f => f.protocol = protocol with
  | some slot => observeInvoke code runner logger slot (args.map .pointer) s
  | none => []

def observeDispatch (d : Dispatch C σ) : List (Record C σ) :=
  ⟨.reached d, d.before.1.table⟩ ::
    ((if d.Heeded then observeAnswer code runner logger d.protocol d.args d.before else []) ++
      [⟨.left d, (d.after code).1.table⟩])

def observeCode : Code α → Native C σ × σ → List (Record C σ)
  | .finish _, _ => []
  | .memory change next, s =>
    observeCode (next s.1.memory) ({ s.1 with memory := change s.1.memory }, s.2)
  | .callback protocol args next, s =>
    observeDispatch code runner logger ⟨protocol, args, s, runner⟩ ++
      observeCode next (dispatch code runner protocol args s)

def observe : Observer (HostFunction C σ) σ (Native C σ) (Record C σ)
  | .call symbol args, s =>
    match s.1.entered? symbol args with
    | some c => observeCode code runner logger c (s.1.enter, s.2)
    | none => []
  | .invoke slot args, s => observeInvoke code runner logger slot args s
  | .register f, s =>
    match s.1.register f with
    | (.ok slot, m) => [⟨.registered slot f, m.table⟩]
    | (.error _, _) => []
  | .release slot, s =>
    match s.1.release slot with
    | (.ok _, m) => [⟨.released slot, m.table⟩]
    | (.error _, _) => []
  | _, _ => []

end

def history (code : C → List Value → HostProgram C σ Value) (depth : Nat) :
    Observer (HostFunction C σ) σ (Native C σ) (Record C σ) :=
  Observer.nested (perform code) (observe code) depth

structure Steady (m n : Native C σ) : Prop where
  depth_eq : n.depth = m.depth
  current_eq : n.current = m.current

namespace Steady

variable {m n k : Native C σ}

theorem refl (m : Native C σ) : Steady m m := ⟨rfl, rfl⟩

theorem trans (h : Steady m n) (h' : Steady n k) : Steady m k :=
  ⟨h'.depth_eq.trans h.depth_eq, h'.current_eq.trans h.current_eq⟩

theorem exit {previous : Native C σ} (h : Steady previous.enter n) :
    Steady previous (n.exit previous.current) := by
  have hdepth : n.depth - 1 = previous.depth := by
    rw [h.depth_eq]
    rfl
  unfold Native.exit settle
  split
  · exact ⟨hdepth, rfl⟩
  · exact ⟨hdepth, rfl⟩

end Steady

theorem state_leave (result : Outcome Word) (m : Native C σ) :
    (leave result m).2 = m.settle := by
  unfold leave settle
  split
  · split
    · rfl
    · next hp =>
      cases m
      cases hp
      rfl
  · rfl

theorem leave_eq_error {m : Native C σ} {failure : Failure} (result : Outcome Word)
    (hd : m.depth = 0) (hp : m.pending = some failure) : (leave result m).1 = .error failure := by
  rw [leave, if_pos hd, hp]

theorem call_of_some {symbol : String} {args : List Value} {c : Code Word}
    (code : C → List Value → HostProgram C σ Value)
    (runner : Runner (HostFunction C σ) σ (Native C σ)) (s : Native C σ × σ)
    (h : s.1.entered? symbol args = some c) {w : Word} {t : Native C σ × σ}
    (hc : execute code runner c (s.1.enter, s.2) = (w, t)) :
    call code runner symbol args s =
      ((leave (.ok w) { t.1 with current := s.1.current, depth := t.1.depth - 1 }).1,
        (t.1.exit s.1.current, t.2)) := by
  unfold entered? at h
  split at h
  · next entry words he hw =>
    split at h
    · next hlen =>
      obtain rfl := Option.some.inj h
      rw [execute, enter] at hc
      simp only [call, he, hw, runCode, if_pos hlen, hc]
      rw [exit, ← state_leave (.ok w)]
    · contradiction
  · contradiction

@[simp] theorem table_exit (m : Native C σ) (previous : Option Nat) :
    (m.exit previous).table = m.table := by
  unfold exit settle
  split <;> rfl

theorem state_call_of_none {symbol : String} {args : List Value}
    (code : C → List Value → HostProgram C σ Value)
    (runner : Runner (HostFunction C σ) σ (Native C σ)) (s : Native C σ × σ)
    (h : s.1.entered? symbol args = none) :
    (call code runner symbol args s).2.1 = s.1 ∨
      (call code runner symbol args s).2.1 = s.1.enter.exit s.1.current := by
  unfold entered? at h
  cases he : s.1.entryCode? symbol with
  | none => exact .inl (by rw [call, he])
  | some entry =>
    cases hw : args.mapM s.1.materialize with
    | error failure => exact .inl (by rw [call, he, hw])
    | ok words =>
      have hlen : ¬ words.length ≤ maxArguments := by
        intro hlen
        simp [he, hw, hlen] at h
      simp only [call, he, hw, runCode, if_neg hlen, state_leave]
      exact .inr rfl

/-- A relation between a module, a history, and the module behind it that holds of whole histories
if it holds of each step of one. -/
structure Explains (code : C → List Value → HostProgram C σ Value)
    (R : Native C σ → List (Record C σ) → Native C σ → Prop) : Prop extends Sequential R where
  memory : ∀ m memory, R m [] { m with memory }
  register : ∀ m f, R m [⟨.registered m.table.length f, m.table.add f⟩]
    { m with table := m.table.add f }
  release : ∀ {m slot f}, m.table.idle? slot = some f →
    R m [⟨.released slot, (m.table.clear slot).shrink⟩]
      { m with table := (m.table.clear slot).shrink }
  invoke : ∀ {m slot f l n}, m.table.idle? slot = some f → R (m.checkOut slot f) l n →
    R m (⟨.began slot f, (m.checkOut slot f).table⟩ ::
      (l ++ [⟨.ended slot, (n.restore slot f).table⟩])) (n.restore slot f)
  ignored : ∀ {d}, ¬ d.Heeded → 0 < d.before.1.depth →
    R d.before.1 [⟨.reached d, d.before.1.table⟩, ⟨.left d, d.before.1.table⟩] d.before.1
  answered : ∀ {d l}, d.Heeded → 0 < d.before.1.depth →
    R d.before.1 l (answer code d.runner d.protocol d.args d.before).2.1 →
      R d.before.1 (⟨.reached d, d.before.1.table⟩ :: (l ++ [⟨.left d, (d.after code).1.table⟩]))
        (d.after code).1
  call : ∀ {m l n}, Steady m.enter n → R m.enter l n → R m l (n.exit m.current)

namespace Explains

variable {code : C → List Value → HostProgram C σ Value}
  {R : Native C σ → List (Record C σ) → Native C σ → Prop} (hR : Explains code R)
  {runner : Runner (HostFunction C σ) σ (Native C σ)}
  {logger : Logger (HostFunction C σ) σ (Native C σ) (Record C σ)}

include hR

/-- Along with a relation, the entry points that run may be known to stay. -/
theorem steady : Sequential fun m l n => Steady m n ∧ R m l n where
  nil m := ⟨.refl m, hR.nil m⟩
  append h h' := ⟨h.1.trans h'.1, hR.append h.2 h'.2⟩

theorem writeBytes (m : Native C σ) (p : Word) (bytes : List UInt8) :
    Steady m (m.writeBytes p bytes).2 ∧ R m [] (m.writeBytes p bytes).2 := by
  unfold Native.writeBytes
  split
  · exact ⟨.refl m, hR.nil m⟩
  · exact ⟨⟨rfl, rfl⟩, hR.memory m _⟩

variable (hl : ∀ p s, Steady s.1 (runner p s).2.1 ∧ R s.1 (logger p s) (runner p s).2.1)

include hl

theorem observeInvoke (slot : Nat) (args : List Value) (s : Native C σ × σ) :
    Steady s.1 (Native.invoke code runner slot args s).2.1 ∧
      R s.1 (Native.observeInvoke code runner logger slot args s)
        (Native.invoke code runner slot args s).2.1 := by
  cases hf : s.1.table.idle? slot with
  | none =>
    rw [Native.observeInvoke, hf, Native.invoke, HostFunction.invoke, hf]
    exact ⟨.refl s.1, hR.nil s.1⟩
  | some f =>
    obtain ⟨hs, hr⟩ := hl (f.program code args) (s.1.checkOut slot f, s.2)
    have hstate : (Native.invoke code runner slot args s).2.1 =
        (runner (f.program code args) (s.1.checkOut slot f, s.2)).2.1.restore slot f := by
      rw [Native.invoke, HostFunction.invoke, hf]
      rfl
    rw [Native.observeInvoke, hf, hstate]
    exact ⟨⟨hs.depth_eq, hs.current_eq⟩, hR.invoke hf hr⟩

theorem observeAnswer (protocol : Protocol) (args : List Word) (s : Native C σ × σ) :
    Steady s.1 (answer code runner protocol args s).2.1 ∧
      R s.1 (Native.observeAnswer code runner logger protocol args s)
        (answer code runner protocol args s).2.1 := by
  cases hf : s.1.table.latest? fun f => f.protocol = protocol with
  | none =>
    rw [Native.observeAnswer, answer, hf]
    exact ⟨.refl s.1, hR.nil s.1⟩
  | some slot =>
    rw [Native.observeAnswer, answer, hf]
    exact observeInvoke hR hl slot _ s

theorem observeDispatch (protocol : Protocol) (args : List Word) (s : Native C σ × σ)
    (hs : 0 < s.1.depth) :
    Steady s.1 (dispatch code runner protocol args s).1 ∧
      R s.1 (Native.observeDispatch code runner logger ⟨protocol, args, s, runner⟩)
        (dispatch code runner protocol args s).1 := by
  let d : Dispatch C σ := ⟨protocol, args, s, runner⟩
  show Steady d.before.1 (d.after code).1 ∧ _
  rw [Native.observeDispatch]
  by_cases hd : d.Heeded
  · rw [if_pos hd]
    obtain ⟨ha, hr⟩ := observeAnswer hR hl protocol args s
    refine ⟨?_, hR.answered hd hs hr⟩
    rw [Dispatch.after_of_heeded hd]
    exact ⟨ha.depth_eq, ha.current_eq⟩
  · have hafter : d.after code = s := Dispatch.after_of_not_heeded hd
    rw [if_neg hd, hafter, show dispatch code runner protocol args s = s from hafter]
    exact ⟨.refl s.1, hR.ignored hd hs⟩

theorem observeCode (c : Code α) (s : Native C σ × σ) (hs : 0 < s.1.depth) :
    Steady s.1 (execute code runner c s).2.1 ∧
      R s.1 (Native.observeCode code runner logger c s) (execute code runner c s).2.1 := by
  induction c generalizing s with
  | finish a => exact ⟨.refl s.1, hR.nil s.1⟩
  | memory change next ih =>
    have hm : R s.1 [] { s.1 with memory := change s.1.memory } := hR.memory s.1 _
    obtain ⟨ht, hr⟩ := ih s.1.memory ({ s.1 with memory := change s.1.memory }, s.2) hs
    exact ⟨⟨ht.depth_eq, ht.current_eq⟩, hR.append hm hr⟩
  | callback protocol args next ih =>
    -- A callback leaves the depth as it was, so the next one also meets a running entry point.
    obtain ⟨hd, hr⟩ := observeDispatch hR hl protocol args s hs
    have hpos : 0 < (dispatch code runner protocol args s).1.depth := by
      rw [hd.depth_eq]
      exact hs
    obtain ⟨ht, hr'⟩ := ih (dispatch code runner protocol args s) hpos
    exact ⟨hd.trans ht, hR.append hr hr'⟩

theorem observeCall (symbol : String) (args : List Value) (s : Native C σ × σ) :
    Steady s.1 (Native.call code runner symbol args s).2.1 ∧
      R s.1 (observe code runner logger (.call symbol args) s)
        (Native.call code runner symbol args s).2.1 := by
  rw [observe]
  cases hc : s.1.entered? symbol args with
  | none =>
    rcases state_call_of_none code runner s hc with h | h
    · rw [h]
      exact ⟨.refl s.1, hR.nil s.1⟩
    · rw [h]
      exact ⟨(Steady.refl _).exit, hR.call (.refl _) (hR.nil _)⟩
  | some c =>
    obtain ⟨hs, hr⟩ := observeCode hR hl c (s.1.enter, s.2) (Nat.succ_pos _)
    rw [call_of_some code runner s hc rfl]
    exact ⟨hs.exit, hR.call hs hr⟩

/-- What explains each step explains an operation, if it explains the programs that it runs. -/
theorem perform (o : Op (HostFunction C σ)) (s : Native C σ × σ) :
    Steady s.1 (Native.perform code runner o s).2.1 ∧
      R s.1 (observe code runner logger o s) (Native.perform code runner o s).2.1 := by
  cases o with
  | call symbol args => exact observeCall hR hl symbol args s
  | invoke slot args => exact observeInvoke hR hl slot args s
  | register f =>
    rw [observe, Native.perform, Native.register]
    by_cases hroom : s.1.table.length < Table.capacity
    · simp only [hroom, if_true]
      exact ⟨⟨rfl, rfl⟩, hR.register s.1 f⟩
    · simp only [hroom, if_false]
      exact ⟨.refl s.1, hR.nil s.1⟩
  | release slot =>
    rw [observe, Native.perform, Native.release]
    cases hf : s.1.table.idle? slot with
    | none => exact ⟨.refl s.1, hR.nil s.1⟩
    | some f => exact ⟨⟨rfl, rfl⟩, hR.release hf⟩
  | allocate size =>
    show Steady s.1 (s.1.allocate size).2 ∧ R s.1 [] (s.1.allocate size).2
    unfold Native.allocate
    split
    · exact ⟨⟨rfl, rfl⟩, hR.memory s.1 _⟩
    · exact ⟨.refl s.1, hR.nil s.1⟩
  | writeBytes p bytes => exact writeBytes hR s.1 p bytes
  | writeWord p value => exact writeBytes hR s.1 p _
  | _ => exact ⟨.refl s.1, hR.nil s.1⟩

omit hl

theorem exists_runner (depth : Nat) :
    ∃ (runner : Runner (HostFunction C σ) σ (Native C σ))
      (logger : Logger (HostFunction C σ) σ (Native C σ) (Record C σ)),
      Meaning.nested (Native.perform code) depth = Native.perform code runner ∧
        Native.history code depth = observe code runner logger ∧
          ∀ p s, Steady s.1 (runner p s).2.1 ∧ R s.1 (logger p s) (runner p s).2.1 :=
  (steady hR).exists_runner (fun _ _ hl o s => perform hR hl o s) depth

theorem history (depth : Nat) (o : Op (HostFunction C σ)) (s : Native C σ × σ) :
    Steady s.1 (Meaning.nested (Native.perform code) depth o s).2.1 ∧
      R s.1 (Native.history code depth o s)
        (Meaning.nested (Native.perform code) depth o s).2.1 :=
  (steady hR).nested (fun _ _ hl o s => perform hR hl o s) depth o s

theorem run (depth : Nat) (p : HostProgram C σ α) (s : Native C σ × σ) :
    Steady s.1 (p.run (Meaning.nested (Native.perform code) depth) s).2.1 ∧
      R s.1 (p.log (Meaning.nested (Native.perform code) depth) (Native.history code depth) s)
        (p.run (Meaning.nested (Native.perform code) depth) s).2.1 :=
  (steady hR).program (history hR depth) p s

end Explains

end SolidityHost.Native
